import DocWalk.Proofs.Json.Numbers

/-!
# The longest number

Where a number is read it is the longest that stands there, and the bytes need not be those of a text.
The laws of numbers are told of a text (`number_ok`, `number_pass`), so this module compares the
reading of some bytes with that of the same bytes and more behind them.

`Heeds p m` says that there are two outcomes. Either the operation does what it does without the bytes
behind, or the first of these passes the test, and the scanner has gone on into them. Numbers heed the
bytes that write numbers, which are all ASCII. So the first byte that is not ASCII ends a number as
the end of a text does, and what stands before it is a text. And behind the bytes of one number the
scanner goes on, if it does anything else there: no other number that begins at the same place is
longer than the one that is read.

**The law** (`number_longest`): in front of any bytes, a number that is read is a number in the bytes
that were passed, and it begins with every number that stands there; and a number is read whole where
no byte behind it can belong to a number.
-/

set_option autoImplicit false

namespace DocWalk

namespace Utf8

/-- ASCII bytes are those of characters. -/
theorem exists_encodeChars {bytes : List UInt8} (h : ∀ b ∈ bytes, b.toNat < 128) :
    ∃ chars, bytes = encodeChars chars := by
  have hbyte : ∀ n < 128, (Char.ofNat n).toNat < 128 ∧ (Ascii.byte (Char.ofNat n)).toNat = n := by
    decide
  induction bytes with
  | nil => exact ⟨[], rfl⟩
  | cons b rest ih =>
    obtain ⟨chars, rfl⟩ := ih fun b hb => h b (List.mem_cons_of_mem _ hb)
    obtain ⟨hlt, hnat⟩ := hbyte b.toNat (h b List.mem_cons_self)
    exact ⟨Char.ofNat b.toNat :: chars, by
      rw [encodeChars_cons_ascii hlt, UInt8.toNat_inj.mp hnat]⟩

end Utf8

namespace Json

open Grammar Scanner
open Utf8 (encodeChars)

/-! ## More bytes behind -/

/-- A scanner with more bytes behind those that it has. -/
def Scanner.followedBy (s : Scanner) (behind : List UInt8) : Scanner :=
  ⟨s.rest ++ behind, s.pos⟩

theorem Scanner.drop_followedBy {s : Scanner} {n : Nat} (h : n ≤ s.rest.length)
    (behind : List UInt8) : (s.followedBy behind).drop n = (s.drop n).followedBy behind := by
  simp only [followedBy, drop, List.drop_append_of_le_length h, List.take_append_of_le_length h]

namespace Scan

variable {α β : Type} {p : UInt8 → Bool}

/-- An outcome with more bytes behind the scanner that it leaves. -/
def followed (behind : List UInt8) :
    EStateM.Result Fault Scanner α → EStateM.Result Fault Scanner α
  | .ok a s => .ok a (s.followedBy behind)
  | .error fault s => .error fault (s.followedBy behind)

/-- Where a byte passes a test it passes a wider one. -/
theorem any_head?_mono {q : UInt8 → Bool} (hq : ∀ b, q b = true → p b = true)
    {bytes : List UInt8} (h : bytes.head?.any q = true) : bytes.head?.any p = true := by
  match bytes with
  | [] => cases h
  | b :: rest => exact hq b h

/-- What stands behind is heeded only if its first byte passes a test, and then the operation goes on
into it. -/
def Heeds (p : UInt8 → Bool) (m : Scan α) : Prop :=
  ∀ s behind, m (s.followedBy behind) = followed behind (m s) ∨
    behind.head?.any p = true ∧ (m (s.followedBy behind)).left.rest.length ≤ behind.length

theorem heeds_pure (a : α) : Heeds p (pure a : Scan α) :=
  fun _ _ => .inl rfl

theorem heeds_fail (reason : Reason) : Heeds p (fail reason : Scan α) :=
  fun _ _ => .inl rfl

theorem heeds_bind {m : Scan α} {f : α → Scan β} (hm : Heeds p m) (hf : ∀ a, Heeds p (f a))
    (hforward : ∀ a, Forward (f a)) : Heeds p (m >>= f) := by
  intro s behind
  change EStateM.bind m f _ = followed behind (EStateM.bind m f s) ∨
    _ ∧ (EStateM.bind m f _).left.rest.length ≤ _
  unfold EStateM.bind
  rcases hm s behind with heq | ⟨hany, hle⟩
  · rw [heq]
    cases m s with
    | ok a t => exact hf a t behind
    | error fault t => exact .inl rfl
  · -- The first operation has gone into what stands behind, and no other one goes back.
    right
    refine ⟨hany, ?_⟩
    cases hrun : m (s.followedBy behind) with
    | ok a t =>
      rw [hrun] at hle
      exact Nat.le_trans (hforward a t).length_le hle
    | error fault t =>
      rw [hrun] at hle
      exact hle

theorem heeds_ite {c : Prop} [Decidable c] {m n : Scan α} (hm : Heeds p m) (hn : Heeds p n) :
    Heeds p (if c then m else n) := by
  split
  · exact hm
  · exact hn

theorem heeds_accept {q : UInt8 → Bool} (hq : ∀ b, q b = true → p b = true) :
    Heeds p (accept q) := by
  intro s behind
  unfold accept
  match hs : s.rest with
  | b :: rest =>
    left
    have hhead : (s.followedBy behind).rest.head? = some b := by rw [followedBy, hs]; rfl
    have hdrop : (s.followedBy behind).drop 1 = (s.drop 1).followedBy behind :=
      drop_followedBy (by rw [hs]; exact Nat.le_add_left _ _) behind
    rw [hhead, List.head?_cons, hdrop]
    cases hb : (some b).any q <;> rfl
  | [] =>
    have hrest : (s.followedBy behind).rest = behind := by rw [followedBy, hs]; rfl
    rw [hrest, List.head?_nil]
    cases hb : behind.head?.any q with
    | false => exact .inl rfl
    | true =>
      refine .inr ⟨any_head?_mono hq hb, ?_⟩
      have hle := ((s.followedBy behind).reaches_drop 1).length_le
      rwa [hrest] at hle

theorem heeds_skipWhile {q : UInt8 → Bool} (hq : ∀ b, q b = true → p b = true) :
    Heeds p (skipWhile q) := by
  intro s behind
  have hle : (s.rest.takeWhile q).length ≤ s.rest.length := (List.takeWhile_prefix q).length_le
  have htake : (s.followedBy behind).rest.takeWhile q = if (s.rest.takeWhile q).length = s.rest.length
      then s.rest ++ behind.takeWhile q else s.rest.takeWhile q := List.takeWhile_append
  unfold skipWhile
  rw [htake]
  split
  next hall =>
    cases hb : behind.head?.any q with
    | true =>
      refine .inr ⟨any_head?_mono hq hb, ?_⟩
      simp only [EStateM.Result.left_ok, drop, followedBy, List.length_drop, List.length_append]
      omega
    | false =>
      left
      have hnone : behind.takeWhile q = [] := by
        cases behind with
        | nil => rfl
        | cons b more => exact List.takeWhile_cons_of_neg (by simpa using hb)
      rw [hnone, List.append_nil, hall, drop_followedBy (Nat.le_refl _)]
      rfl
  next =>
    rw [drop_followedBy hle]
    exact .inl rfl

/-! ## Numbers -/

/-- A byte that writes numbers: one that can go on with a number, or a sign. -/
def writesNumber (b : UInt8) : Bool :=
  isNumberByte b || b = Ascii.plus || b = Ascii.hyphen

theorem writesNumber_of_isDigit (b : UInt8) (h : Ascii.isDigit b = true) :
    writesNumber b = true := by
  rw [writesNumber, isNumberByte_of_isDigit h]
  rfl

/-- Numbers are written in ASCII. -/
theorem toNat_lt_of_writesNumber {b : UInt8} (h : writesNumber b = true) : b.toNat < 128 := by
  simp only [writesNumber, isNumberByte, Bool.or_eq_true, decide_eq_true_eq] at h
  rcases h with ((((hdigit | rfl) | rfl) | rfl) | rfl) | rfl
  · exact toNat_lt_of_isDigit hdigit
  all_goals decide

theorem heeds_someDigits : Heeds writesNumber someDigits :=
  heeds_bind (heeds_accept writesNumber_of_isDigit)
    (fun _ => heeds_ite (heeds_skipWhile writesNumber_of_isDigit) (heeds_fail _))
    (fun _ => forward_ite (forward_skipWhile _) (forward_fail _))

theorem heeds_byte {c : UInt8} (h : writesNumber c = true) :
    Heeds writesNumber (accept (· = c)) :=
  heeds_accept fun b hb => by rw [of_decide_eq_true hb, h]

theorem heeds_either {c d : UInt8} (hc : writesNumber c = true) (hd : writesNumber d = true) :
    Heeds writesNumber (accept fun b => b = c || b = d) := by
  refine heeds_accept fun b hb => ?_
  rcases Bool.or_eq_true _ _ ▸ hb with hb | hb
  · rw [of_decide_eq_true hb, hc]
  · rw [of_decide_eq_true hb, hd]

theorem heeds_wholePart : Heeds writesNumber wholePart :=
  heeds_bind (heeds_byte (by decide)) (fun _ => heeds_ite (heeds_pure ()) heeds_someDigits)
    (fun _ => forward_ite (forward_pure ()) forward_someDigits)

theorem heeds_fractionPart : Heeds writesNumber fractionPart :=
  heeds_bind (heeds_byte (by decide)) (fun _ => heeds_ite heeds_someDigits (heeds_pure _))
    (fun _ => forward_ite forward_someDigits (forward_pure _))

theorem heeds_exponentPart : Heeds writesNumber exponentPart := by
  have hsigned : Heeds writesNumber (do
      let _ ← accept fun b => b = Ascii.plus || b = Ascii.hyphen
      someDigits) :=
    heeds_bind (heeds_either (by decide) (by decide)) (fun _ => heeds_someDigits)
      fun _ => forward_someDigits
  exact heeds_bind (heeds_either (by decide) (by decide))
    (fun _ => heeds_ite hsigned (heeds_pure _))
    (fun _ => forward_ite (forward_bind (forward_accept _) fun _ => forward_someDigits)
      (forward_pure _))

/-- The parts of a number, without its text. -/
def numberParts : Scan Unit := do
  let _ ← accept (· = Ascii.hyphen)
  wholePart
  fractionPart
  exponentPart

theorem forward_numberParts : Forward numberParts :=
  forward_bind (forward_accept _) fun _ => forward_bind forward_wholePart fun _ =>
    forward_bind forward_fractionPart fun _ => forward_exponentPart

theorem heeds_numberParts : Heeds writesNumber numberParts :=
  heeds_bind (heeds_byte (by decide))
    (fun _ => heeds_bind heeds_wholePart
      (fun _ => heeds_bind heeds_fractionPart (fun _ => heeds_exponentPart)
        fun _ => forward_exponentPart)
      fun _ => forward_bind forward_fractionPart fun _ => forward_exponentPart)
    (fun _ => forward_bind forward_wholePart fun _ =>
      forward_bind forward_fractionPart fun _ => forward_exponentPart)

/-- A number is the text of its parts. -/
theorem number_eq (s : Scanner) : number s = match numberParts s with
    | .ok _ t => .ok (chunkText (s.rest.take (t.pos - s.pos))) t
    | .error fault t => .error fault t := by
  have hparts : number = (do
      let start ← get
      numberParts
      let stop ← get
      return chunkText (start.rest.take (stop.pos - start.pos))) := by
    simp only [number, numberParts, bind_assoc]
  rw [hparts]
  change EStateM.bind numberParts _ s = _
  unfold EStateM.bind
  cases numberParts s <;> rfl

theorem heeds_number : Heeds writesNumber number := by
  intro s behind
  rw [number_eq, number_eq]
  have hreaches : s.Reaches (numberParts s).left := forward_numberParts s
  rcases heeds_numberParts s behind with heq | ⟨hany, hle⟩
  · left
    rw [heq]
    cases hrun : numberParts s with
    | error fault t => rfl
    | ok _ t =>
      rw [hrun] at hreaches
      have hsum := hreaches.pos_add_length
      have hshort : t.pos - s.pos ≤ s.rest.length := by
        simp only [EStateM.Result.left_ok] at hsum
        omega
      have htake : (s.followedBy behind).rest.take (t.pos - s.pos) =
          s.rest.take (t.pos - s.pos) := List.take_append_of_le_length hshort
      show EStateM.Result.ok (chunkText ((s.followedBy behind).rest.take (t.pos - s.pos))) _ = _
      rw [htake]
      rfl
  · right
    refine ⟨hany, ?_⟩
    cases hrun : numberParts (s.followedBy behind) with
    | error fault t =>
      rw [hrun] at hle
      exact hle
    | ok _ t =>
      rw [hrun] at hle
      exact hle

/-- Bytes behind, of which the first is not ASCII, do not matter to a number. -/
theorem number_followedBy {behind : List UInt8} (h : behind.head?.any (·.toNat < 128) = false)
    (s : Scanner) : number (s.followedBy behind) = followed behind (number s) := by
  refine (heeds_number s behind).resolve_right fun ⟨hany, _⟩ => ?_
  rw [any_head?_mono (fun b hb => decide_eq_true (toNat_lt_of_writesNumber hb)) hany] at h
  cases h

/-- Bytes are those of a text up to the first that is not ASCII. -/
theorem exists_ascii_front (bytes : List UInt8) :
    ∃ chars behind, bytes = encodeChars chars ++ behind ∧
      behind.head?.any (·.toNat < 128) = false := by
  have hfront : ∀ b ∈ bytes.takeWhile (·.toNat < 128), b.toNat < 128 := fun b hb =>
    of_decide_eq_true (List.all_eq_true.mp List.all_takeWhile b hb)
  obtain ⟨chars, hchars⟩ := Utf8.exists_encodeChars hfront
  refine ⟨chars, bytes.dropWhile (·.toNat < 128), ?_, ?_⟩
  · rw [← hchars, List.takeWhile_append_dropWhile]
  · have hstop := List.head?_dropWhile_not (fun b : UInt8 => decide (b.toNat < 128)) bytes
    cases hhead : (bytes.dropWhile fun b => decide (b.toNat < 128)).head? with
    | none => rfl
    | some b =>
      rw [hhead] at hstop
      exact hstop

/-- What is read as a number in front of any bytes is a number in the bytes that were passed. -/
theorem number_sound {s t : Scanner} {text : String} (h : number s = .ok text t) :
    ∃ chars, Number chars ∧ text = .ofList chars ∧ s.rest = encodeChars chars ++ t.rest ∧
      t.pos = s.pos + (encodeChars chars).length := by
  obtain ⟨front, behind, hrest, hforeign⟩ := exists_ascii_front s.rest
  have hs : s = (facing front s.pos).followedBy behind := by rw [followedBy, facing, ← hrest]
  rw [hs, number_followedBy hforeign] at h
  cases hread : number (facing front s.pos) with
  | error fault u =>
    rw [hread] at h
    cases h
  | ok text' u =>
    rw [hread] at h
    cases h
    obtain ⟨chars, hnumber, hpass, htext⟩ := number_ok (onText_facing _ _) hread
    refine ⟨chars, hnumber, htext, ?_, hpass.pos_eq⟩
    have hfront : encodeChars front = encodeChars chars ++ u.rest := hpass.rest_eq
    rw [hrest, hfront, List.append_assoc]
    rfl

/-- A number is read whole in front of any bytes that cannot belong to it. -/
theorem number_complete {chars : List Char} {behind : List UInt8} (hn : Number chars)
    (hbehind : behind.head?.any isNumberByte = false) (pos : Nat) :
    number ⟨encodeChars chars ++ behind, pos⟩ =
      .ok (.ofList chars) ⟨behind, pos + (encodeChars chars).length⟩ := by
  obtain ⟨more, foreign, rfl, hforeign⟩ := exists_ascii_front behind
  have hstops : Stops isNumberByte (facing more (pos + (encodeChars chars).length)) := by
    cases more with
    | nil => rfl
    | cons c more =>
      rw [Utf8.encodeChars_cons, List.append_assoc] at hbehind
      rw [Stops, facing, Utf8.encodeChars_cons]
      cases hc : String.utf8EncodeChar c with
      | nil => exact absurd hc (Utf8.utf8EncodeChar_ne_nil c)
      | cons b others =>
        rw [hc] at hbehind
        exact hbehind
  have hread := number_pass (.mk chars more pos) hn hstops
  have hfollowed := number_followedBy hforeign (facing (chars ++ more) pos)
  rw [hread] at hfollowed
  simp only [followedBy, facing, Utf8.encodeChars_append, List.append_assoc] at hfollowed
  exact hfollowed

/-- A number that stands where another one is read begins the one that is read. -/
theorem prefix_of_number {s t : Scanner} {text : String} {chars other : List Char}
    {behind : List UInt8} (h : number s = .ok text t)
    (hrest : s.rest = encodeChars chars ++ t.rest) (hn : Number other)
    (hother : s.rest = encodeChars other ++ behind) : other <+: chars := by
  have hread := number_complete hn (show ([] : List UInt8).head?.any isNumberByte = false from rfl) s.pos
  rw [List.append_nil] at hread
  have hle : t.rest.length ≤ behind.length := by
    have hs : s = Scanner.followedBy ⟨encodeChars other, s.pos⟩ behind := by
      rw [followedBy, ← hother]
    rcases heeds_number ⟨encodeChars other, s.pos⟩ behind with heq | ⟨_, hle⟩
    · rw [← hs, h, hread] at heq
      cases heq
      exact Nat.le_refl _
    · rw [← hs, h] at hle
      exact hle
  have hprefix : encodeChars other <+: encodeChars chars := by
    have hfirst : encodeChars other <+: s.rest := ⟨behind, hother.symm⟩
    refine List.prefix_of_prefix_length_le hfirst ⟨t.rest, hrest.symm⟩ ?_
    have hlength := congrArg List.length (hother.symm.trans hrest)
    rw [List.length_append, List.length_append] at hlength
    omega
  obtain ⟨more, hmore⟩ := hprefix
  obtain ⟨ys, rfl, _⟩ := Utf8.eq_append_of_encodeChars hmore.symm
  exact List.prefix_append other ys

/-- **The longest number is read**, in front of any bytes. What is read is a number in the bytes that
were passed, and begins with every number that stands there. And a number is read whole, with the
scanner left right behind it, when no digit, point or letter e comes next. -/
theorem number_longest (s : Scanner) :
    (∀ text t, number s = .ok text t →
      ∃ chars, Number chars ∧ text = .ofList chars ∧ s.rest = encodeChars chars ++ t.rest ∧
        t.pos = s.pos + (encodeChars chars).length ∧
        ∀ other behind, Number other → s.rest = encodeChars other ++ behind → other <+: chars) ∧
      ∀ chars behind, Number chars → s.rest = encodeChars chars ++ behind →
        behind.head?.any isNumberByte = false →
          number s = .ok (.ofList chars) ⟨behind, s.pos + (encodeChars chars).length⟩ := by
  constructor
  · intro text t h
    obtain ⟨chars, hnumber, htext, hrest, hpos⟩ := number_sound h
    exact ⟨chars, hnumber, htext, hrest, hpos, fun _ _ hn hother =>
      prefix_of_number h hrest hn hother⟩
  · intro chars behind hn hrest hbehind
    have hs : s = ⟨encodeChars chars ++ behind, s.pos⟩ := by rw [← hrest]
    rw [hs]
    exact number_complete hn hbehind s.pos

/-- A number with all its parts, in front of a sign and a byte that no text holds. -/
theorem number_longest_mixed :
    (Number "-10.5e+07".toList ∧
      number ⟨encodeChars "-10.5e+07".toList ++ [Ascii.hyphen, 0xFF], 3⟩ =
        .ok "-10.5e+07" ⟨[Ascii.hyphen, 0xFF], 12⟩) ∧
      -- A zero is the whole of what is read in front of a digit.
      number ⟨encodeChars "012".toList, 0⟩ = .ok "0" ⟨encodeChars "12".toList, 1⟩ ∧
      ∀ other behind, Number other → encodeChars "012".toList = encodeChars other ++ behind →
        other <+: "0".toList := by
  have hdigits : ∀ {chars}, chars ≠ [] → chars.all Grammar.isDigit = true → Digits chars :=
    fun hne hall => ⟨hne, List.all_eq_true.mp hall⟩
  have hnumber : Number "-10.5e+07".toList :=
    @Number.mk ['-'] ['1', '0'] ['.', '5'] ['e', '+', '0', '7'] (by decide)
      (.digits (hdigits nofun (by decide)) (by decide))
      (.present (hdigits nofun (by decide)))
      (@Exponent.present 'e' ['+'] ['0', '7'] (by decide) (by decide)
        (hdigits nofun (by decide)))
  have hzero : number ⟨encodeChars "012".toList, 0⟩ = .ok "0" ⟨encodeChars "12".toList, 1⟩ := by
    decide +kernel
  refine ⟨⟨hnumber, ?_⟩, hzero, ?_⟩
  · exact (number_longest ⟨encodeChars "-10.5e+07".toList ++ [Ascii.hyphen, 0xFF], 3⟩).2 _ _
      hnumber rfl (by decide)
  · obtain ⟨chars, _, htext, _, _, hlongest⟩ := (number_longest _).1 _ _ hzero
    have hchars : "0".toList = chars := by rw [htext, String.toList_ofList]
    rw [hchars]
    exact hlongest

end Scan

end Json

end DocWalk
