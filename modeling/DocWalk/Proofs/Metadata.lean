import DocWalk.Metadata
import Mathlib.Data.List.Nodup
import Mathlib.Logic.Function.Iterate

/-!
# What is kept under a key

Catching a text at a position changes the entries of the expressions that mean the position, and no
others: the entry of a key once for each of them that has the key. When no two expressions share a
key, the entry of each is its own, and catching puts the text there, or writes it behind what is
there, exactly when the expression means the position.

To put a text under a key twice is to put it there once. To write it behind what is there twice is
not. So a text that comes in pieces is kept with each piece but the first as often as expressions
that mean the position share the key, and **the law** (`get?_catchPieces`) tells apart the keys
whose entry is the text from those whose entry is not.
-/

set_option autoImplicit false

namespace DocWalk

namespace Captured

theorem lookup_cons_ite (k key text : String) (rest : List (String × String)) :
    ((key, text) :: rest).lookup k = if k = key then some text else rest.lookup k := by
  rw [List.lookup_cons]
  by_cases h : k = key
  · rw [if_pos h, beq_iff_eq.mpr h]
  · rw [if_neg h, beq_eq_false_iff_ne.mpr h]

/-- Changing an entry changes what is found under its key only. -/
theorem lookup_alterEntry (key k : String) (change : Option String → String)
    (entries : List (String × String)) :
    (alterEntry key change entries).lookup k =
      if k = key then some (change (entries.lookup key)) else entries.lookup k := by
  induction entries with
  | nil => exact lookup_cons_ite k key _ []
  | cons entry rest ih =>
    obtain ⟨found, text⟩ := entry
    rw [alterEntry, lookup_cons_ite, lookup_cons_ite]
    by_cases hfound : found = key
    · subst hfound
      rw [if_pos rfl, lookup_cons_ite, if_pos rfl]
      by_cases hk : k = found
      · rw [if_pos hk, if_pos hk]
      · rw [if_neg hk, if_neg hk, if_neg hk]
    · rw [if_neg hfound, lookup_cons_ite, ih, if_neg (Ne.symm hfound)]
      by_cases hk : k = found
      · have hne : k ≠ key := fun h => hfound (hk.symm.trans h)
        rw [if_pos hk, if_neg hne, if_pos hk]
      · rw [if_neg hk, if_neg hk]

/-- Changes the entries of some expressions, each in the same way. -/
def alterAll (change : Option String → String) (expressions : List Expression)
    (captured : Captured) : Captured :=
  expressions.foldl (fun kept e => ⟨alterEntry e.key change kept.entries⟩) captured

/-- The entry of a key is changed once for each expression that has the key. -/
theorem get?_alterAll (change : Option String → String) (expressions : List Expression)
    (key : String) (captured : Captured) :
    (captured.alterAll change expressions).get? key =
      (fun kept => some (change kept))^[expressions.countP (·.key = key)] (captured.get? key) := by
  induction expressions generalizing captured with
  | nil => rfl
  | cons e rest ih =>
    rw [alterAll, List.foldl_cons, ← alterAll, ih, get?, lookup_alterEntry]
    by_cases hkey : e.key = key
    · have hcount : (e :: rest).countP (·.key = key) = rest.countP (·.key = key) + 1 :=
        List.countP_cons_of_pos (decide_eq_true hkey)
      rw [hcount, Function.iterate_succ_apply, if_pos hkey.symm, hkey]
      rfl
    · have hcount : (e :: rest).countP (·.key = key) = rest.countP (·.key = key) :=
        List.countP_cons_of_neg fun h => hkey (of_decide_eq_true h)
      rw [hcount, if_neg (Ne.symm hkey)]
      rfl

end Captured

namespace Registry

/-- How many expressions mean this position and have this key. -/
def sharing (registry : Registry) (here : Position) (key : String) : Nat :=
  registry.expressions.countP fun e => e.holds here && e.key = key

/-- Catching at a position changes the entry of a key once for each expression that shares it. -/
theorem get?_alterAll_watching (registry : Registry) (here : Position) (key : String)
    (change : Option String → String) :
    (registry.captured.alterAll change (registry.watching here)).get? key =
      (fun kept => some (change kept))^[registry.sharing here key]
        (registry.captured.get? key) := by
  have hcount : (registry.watching here).countP (·.key = key) = registry.sharing here key := by
    rw [watching, List.countP_filter, sharing]
    simp only [Bool.and_comm]
  rw [Captured.get?_alterAll, hcount]

theorem sharing_ne_zero_iff {registry : Registry} {here : Position} {key : String} :
    registry.sharing here key ≠ 0 ↔ ∃ e ∈ registry.expressions, e.holds here ∧ e.key = key := by
  rw [← Nat.pos_iff_ne_zero, sharing, List.countP_pos_iff]
  simp

/-! ## Keys of their own -/

section

variable {registry : Registry} {e : Expression}

/-- An expression with a key of its own is alone with it. -/
theorem sharing_of_nodup (hkeys : (registry.expressions.map (·.key)).Nodup)
    (he : e ∈ registry.expressions) (here : Position) :
    registry.sharing here e.key = if e.holds here then 1 else 0 := by
  have hle : registry.sharing here e.key ≤ 1 := by
    refine Nat.le_trans ?_ (List.nodup_iff_count_le_one.mp hkeys e.key)
    rw [List.count, List.countP_map]
    exact List.countP_mono_left fun other _ hother => (Bool.and_eq_true_iff.mp hother).2
  split
  next hholds =>
    have hne := sharing_ne_zero_iff.mpr ⟨e, he, hholds, rfl⟩
    omega
  next hholds =>
    by_contra hne
    obtain ⟨other, hother, hmeans, hkey⟩ := sharing_ne_zero_iff.mp hne
    cases List.inj_on_of_nodup_map hkeys hother he hkey
    exact hholds hmeans

theorem get?_capture (hkeys : (registry.expressions.map (·.key)).Nodup)
    (he : e ∈ registry.expressions) (here : Position) (text : String) :
    (registry.capture here text).captured.get? e.key =
      if e.holds here then some text else registry.captured.get? e.key := by
  have hchanged := registry.get?_alterAll_watching here e.key fun _ => text
  rw [sharing_of_nodup hkeys he] at hchanged
  refine hchanged.trans ?_
  split <;> rfl

theorem get?_extend (hkeys : (registry.expressions.map (·.key)).Nodup)
    (he : e ∈ registry.expressions) (here : Position) (text : String) :
    (registry.extend here text).captured.get? e.key =
      if e.holds here then some ((registry.captured.get? e.key).getD "" ++ text)
      else registry.captured.get? e.key := by
  have hchanged := registry.get?_alterAll_watching here e.key fun kept => kept.getD "" ++ text
  rw [sharing_of_nodup hkeys he] at hchanged
  refine hchanged.trans ?_
  split <;> rfl

end

/-! ## A text in pieces -/

/-- A text so many times over. -/
def repeated (n : Nat) (text : String) : String :=
  String.join (List.replicate n text)

theorem repeated_succ (n : Nat) (text : String) :
    repeated (n + 1) text = text ++ repeated n text := by
  rw [repeated, List.replicate_succ, String.join_cons, repeated]

theorem length_repeated (n : Nat) (text : String) :
    (repeated n text).length = n * text.length := by
  rw [repeated, String.length_join, List.map_replicate, List.sum_replicate_nat]

/-- Catches a text that comes in pieces, all at one position. -/
def catchPieces (registry : Registry) (here : Position) (first : String) (rest : List String) :
    Registry :=
  rest.foldl (fun registry piece => registry.extend here piece) (registry.capture here first)

variable {registry : Registry} {here : Position} {key : String}

theorem get?_capture_of_sharing (h : registry.sharing here key ≠ 0) (text : String) :
    (registry.capture here text).captured.get? key = some text := by
  obtain ⟨n, hn⟩ := Nat.exists_eq_succ_of_ne_zero h
  have hchanged := registry.get?_alterAll_watching here key fun _ => text
  rw [hn, Function.iterate_succ_apply'] at hchanged
  exact hchanged

theorem get?_capture_of_not_sharing (h : registry.sharing here key = 0) (text : String) :
    (registry.capture here text).captured.get? key = registry.captured.get? key := by
  have hchanged := registry.get?_alterAll_watching here key fun _ => text
  rw [h] at hchanged
  exact hchanged

theorem get?_extend_of_not_sharing (h : registry.sharing here key = 0) (text : String) :
    (registry.extend here text).captured.get? key = registry.captured.get? key := by
  have hchanged := registry.get?_alterAll_watching here key fun kept => kept.getD "" ++ text
  rw [h] at hchanged
  exact hchanged

/-- A piece is written behind what is kept as often as the key is shared. -/
theorem get?_extend_of_kept {kept : String} (h : registry.captured.get? key = some kept)
    (text : String) : (registry.extend here text).captured.get? key =
      some (kept ++ repeated (registry.sharing here key) text) := by
  have happend : ∀ (n : Nat) (kept : String),
      (fun found : Option String => some (found.getD "" ++ text))^[n] (some kept) =
        some (kept ++ repeated n text) := by
    intro n
    induction n with
    | zero => simp [repeated]
    | succ n ih =>
      intro kept
      rw [Function.iterate_succ_apply, Option.getD_some, ih, repeated_succ, String.append_assoc]
  have hchanged := registry.get?_alterAll_watching here key fun kept => kept.getD "" ++ text
  rw [h, happend] at hchanged
  exact hchanged

theorem get?_foldl_extend_of_not_sharing (h : registry.sharing here key = 0)
    (rest : List String) :
    (rest.foldl (fun registry piece => registry.extend here piece) registry).captured.get? key =
      registry.captured.get? key := by
  induction rest generalizing registry with
  | nil => rfl
  | cons piece rest ih =>
    have hsharing : (registry.extend here piece).sharing here key = 0 := h
    rw [List.foldl_cons, ih hsharing, get?_extend_of_not_sharing h]

theorem get?_foldl_extend_of_kept {kept : String} (h : registry.captured.get? key = some kept)
    (rest : List String) :
    (rest.foldl (fun registry piece => registry.extend here piece) registry).captured.get? key =
      some (kept ++ String.join (rest.map (repeated (registry.sharing here key)))) := by
  induction rest generalizing registry kept with
  | nil => simpa using h
  | cons piece rest ih =>
    have hsharing :
        (registry.extend here piece).sharing here key = registry.sharing here key := rfl
    rw [List.foldl_cons, ih (get?_extend_of_kept h piece), hsharing, List.map_cons,
      String.join_cons, String.append_assoc]

/-- Pieces written more often than once make a longer text, unless there is nothing in them. -/
theorem join_repeated_eq_iff {n : Nat} (hn : n ≠ 0) (rest : List String) :
    String.join (rest.map (repeated n)) = String.join rest ↔
      n = 1 ∨ ∀ piece ∈ rest, piece = "" := by
  have hlength : (String.join (rest.map (repeated n))).length = n * (String.join rest).length := by
    induction rest with
    | nil => rfl
    | cons piece rest ih =>
      rw [List.map_cons, String.join_cons, String.join_cons, String.length_append,
        String.length_append, ih, length_repeated, Nat.mul_add]
  constructor
  · intro heq
    rw [heq] at hlength
    by_cases hone : n = 1
    · exact .inl hone
    · have hnone : (String.join rest).length = 0 := by
        by_contra hsome
        exact hone ((Nat.mul_eq_right hsome).mp hlength.symm)
      rw [String.length_join, List.sum_eq_zero_iff_forall_eq_nat] at hnone
      exact .inr fun piece hpiece =>
        String.length_eq_zero_iff.mp (hnone _ (List.mem_map_of_mem hpiece))
  · intro h
    have hsame : ∀ piece ∈ rest, repeated n piece = piece := by
      intro piece hpiece
      rcases h with rfl | hempty
      · rw [repeated_succ, repeated, List.replicate_zero, String.join_nil, String.append_empty]
      · rw [hempty piece hpiece, ← String.length_eq_zero_iff, length_repeated]
        exact Nat.mul_zero n
    rw [List.map_congr_left hsame, List.map_id']

/-- **What is kept of a text in pieces.** -/
theorem get?_catchPieces (registry : Registry) (here : Position) (first : String)
    (rest : List String) (key : String) :
    (registry.catchPieces here first rest).captured.get? key =
        (if registry.sharing here key = 0 then registry.captured.get? key
          else some (first ++ String.join (rest.map (repeated (registry.sharing here key))))) ∧
      (registry.sharing here key ≠ 0 →
        ((registry.catchPieces here first rest).captured.get? key =
            some (String.join (first :: rest)) ↔
          registry.sharing here key = 1 ∨ ∀ piece ∈ rest, piece = "")) := by
  have hkept : (registry.catchPieces here first rest).captured.get? key =
      (if registry.sharing here key = 0 then registry.captured.get? key
        else some (first ++ String.join (rest.map (repeated (registry.sharing here key))))) := by
    have hsharing :
        (registry.capture here first).sharing here key = registry.sharing here key := rfl
    split
    next h =>
      exact (get?_foldl_extend_of_not_sharing (hsharing.trans h) rest).trans
        (get?_capture_of_not_sharing h first)
    next h => exact get?_foldl_extend_of_kept (get?_capture_of_sharing h first) rest
  refine ⟨hkept, fun hne => ?_⟩
  rw [hkept, if_neg hne, String.join_cons, Option.some.injEq, String.append_right_inj,
    join_repeated_eq_iff hne]

/-- Two expressions that mean one place, under one key. -/
def sharedPlace : Registry :=
  ⟨[.of "b" 1 "K", .of "a/b" 0 "K"], {}⟩

/-- There the second piece of a text is kept twice, though the key has expressions that mean the
place and the first piece was kept once. -/
theorem catchPieces_sharedPlace :
    (∃ e ∈ sharedPlace.expressions, e.holds ⟨"/a/b", 2⟩ ∧ e.key = "K") ∧
      (sharedPlace.capture ⟨"/a/b", 2⟩ "one").captured.get? "K" = some "one" ∧
      (sharedPlace.catchPieces ⟨"/a/b", 2⟩ "one" ["two"]).captured.get? "K" = some "onetwotwo" ∧
      (sharedPlace.catchPieces ⟨"/a/b", 2⟩ "one" ["two"]).captured.get? "K" ≠
        some (String.join ["one", "two"]) := by
  decide

end Registry

end DocWalk
