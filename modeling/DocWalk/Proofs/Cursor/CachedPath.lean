import DocWalk.Proofs.Cursor.Operations
import DocWalk.Source.Scripted
import Mathlib.Data.List.Basic

/-!
# The path is never stale

A cursor keeps the joined path of its open nodes, and writes it anew only where an event may have
changed it: a node that opens or closes, an attribute, and any other event behind an attribute. An
operation that fails may have moved the open nodes and the path, and leaves the current event as it
was.

Two forms of the path cover every such state. The path is that of the open nodes, or the current
event is an attribute and the path goes on to it. The first form may come with an attribute as the
current event only behind a failure: the event behind the attribute was entered, and looking ahead
from there failed.

**The law** (`path_of_session`) holds over any source, whatever it gives and in whichever order, and
whatever is asked after a failure. All but moving on leaves names, path and current event as they
are (`SamePlace`), so the law of a step is that of an advance.
-/

set_option autoImplicit false

namespace DocWalk

/-- The names of open nodes, outermost first, each behind a slash. -/
def Path.slashed (names : List String) : String :=
  String.join (names.reverse.map ("/" ++ ·))

theorem Path.join_eq_slashed (names : List String) : Path.join names = Path.slashed names := by
  induction names with
  | nil => rfl
  | cons name outer ih =>
    unfold Path.slashed at ih ⊢
    rw [Path.join, ih, List.reverse_cons, List.map_append, String.join, String.join,
      List.foldl_append]
    exact String.append_assoc

namespace Cursor

variable {σ : Type}

/-- The path is that of the open nodes. -/
def AtNode (c : Cursor σ) : Prop :=
  c.path = Path.slashed c.names

/-- The current event is an attribute, and the path goes on from the open nodes to it. -/
def AtAttribute (c : Cursor σ) : Prop :=
  ∃ a, c.current = some (.attr a) ∧ c.path = Path.slashed c.names ++ "/@" ++ a.name

/-- The path has one of its two forms. -/
def Fresh (c : Cursor σ) : Prop :=
  c.AtNode ∨ c.AtAttribute

/-- An attribute that is the current event is on the path. -/
def Settled (c : Cursor σ) : Prop :=
  c.onAttribute = true → c.AtAttribute

theorem onAttribute_iff {c : Cursor σ} :
    c.onAttribute = true ↔ ∃ a, c.current = some (.attr a) := by
  unfold onAttribute
  cases c.current with
  | none => simp
  | some event => cases event <;> simp [Event.isAttribute]

/-- Off attributes a path of either form is that of the open nodes. -/
theorem Fresh.atNode {c : Cursor σ} (h : c.Fresh) (hc : c.onAttribute = false) : c.AtNode := by
  rcases h with h | ⟨a, ha, _⟩
  · exact h
  · rw [onAttribute_iff.mpr ⟨a, ha⟩] at hc
    cases hc

/-! ## What keeps the path fresh -/

theorem SamePlace.atNode {c d : Cursor σ} (h : SamePlace c d) (hc : c.AtNode) : d.AtNode := by
  unfold AtNode at hc ⊢
  rw [h.path_eq, h.names_eq, hc]

theorem SamePlace.atAttribute {c d : Cursor σ} (h : SamePlace c d) (hc : c.AtAttribute) :
    d.AtAttribute := by
  unfold AtAttribute at hc ⊢
  rw [h.path_eq, h.names_eq, h.current_eq]
  exact hc

theorem SamePlace.fresh {c d : Cursor σ} (h : SamePlace c d) (hc : c.Fresh) : d.Fresh :=
  hc.imp h.atNode h.atAttribute

theorem SamePlace.settled {c d : Cursor σ} (h : SamePlace c d) (hc : c.Settled) : d.Settled := by
  intro hd
  apply h.atAttribute
  apply hc
  rw [onAttribute, ← h.current_eq]
  exact hd

/-- An end of an operation from `c`: the path has one of its forms, and an attribute is still on it
unless the operation has failed. -/
structure Keeps {α : Type} (c : Cursor σ) (r : Outcome σ α) : Prop where
  fresh : r.left.Fresh
  settled : c.Settled → ∀ a d, r = .ok a d → d.Settled

theorem SamePlace.keeps {α : Type} {c : Cursor σ} {r : Outcome σ α} (h : SamePlace c r.left)
    (hc : c.Fresh) : Keeps c r := by
  refine ⟨h.fresh hc, fun hsettled a d hd => ?_⟩
  rw [hd] at h
  exact h.settled hsettled

theorem Keeps.mapAnswer {α β : Type} {c : Cursor σ} {r : Outcome σ α} (h : Keeps c r) (f : α → β) :
    Keeps c (r.mapAnswer f) := by
  refine ⟨?_, fun hsettled b d hd => ?_⟩
  · rw [EStateM.Result.left_mapAnswer]
    exact h.fresh
  · cases r with
    | ok a e =>
      cases hd
      exact h.settled hsettled a d rfl
    | error => cases hd

theorem samePlace_decodeText (kind : Kind) (r : Outcome σ String) :
    SamePlace r.left (decodeText kind r).left := by
  unfold decodeText
  split
  next => split <;> exact ⟨rfl, rfl, rfl⟩
  next => exact .refl _

variable [Source σ]

theorem samePlace_atStart : EStateM.Leads (SamePlace (σ := σ)) atStart :=
  .bind (fun h k => h.trans k) (samePlace_ask _) fun _ => .pure SamePlace.refl _

theorem CollectsText.samePlace {out : String} {c : Cursor σ} {r : Outcome σ String}
    (h : CollectsText out c r) : SamePlace c r.left := by
  induction h with
  | unseen hp => exact (samePlace_ask _).of_error hp
  | ends hp => exact (samePlace_ask _).of_ok hp
  | found hp => exact ((samePlace_ask _).of_ok hp).trans ⟨rfl, rfl, rfl⟩
  | untaken hp hn => exact ((samePlace_ask _).of_ok hp).trans ((samePlace_ask _).of_error hn)
  | unwatched hp hn hw =>
    have htaken := ((samePlace_ask _).of_ok hp).trans ((samePlace_ask _).of_ok hn)
    exact htaken.trans ((samePlace_lookAhead true).of_error hw)
  | piece hp hn hw _ ih =>
    have htaken := ((samePlace_ask _).of_ok hp).trans ((samePlace_ask _).of_ok hn)
    exact (htaken.trans ((samePlace_lookAhead true).of_ok hw)).trans ih
  | other hp hn _ _ ih =>
    exact (((samePlace_ask _).of_ok hp).trans ((samePlace_ask _).of_ok hn)).trans ih

/-- Reading text leaves the place as it is, where it stops as well as where it fails. -/
theorem ReadsText.samePlace {c : Cursor σ} {r : Outcome σ String} (h : ReadsText c r) :
    SamePlace c r.left := by
  unfold ReadsText at h
  split at h
  next =>
    rw [h]
    exact .refl c
  next =>
    rw [h]
    exact .refl c
  next =>
    have hpassed : SamePlace c { c with attributes := [] } := ⟨rfl, rfl, rfl⟩
    exact hpassed.trans h.samePlace
  next =>
    rw [h]
    exact .refl c

/-! ## Moving on -/

omit [Source σ] in
theorem AtNode.of_join {c : Cursor σ} (h : c.path = Path.join c.names) : c.AtNode := by
  rw [AtNode, h, Path.join_eq_slashed]

omit [Source σ] in
/-- Any event but an attribute is entered at the open nodes. -/
theorem enter_atNode {event : Event} {c d : Cursor σ} (hc : c.Fresh)
    (hevent : event.isAttribute = false) (h : enter event c = .ok () d) : d.AtNode := by
  have hnode : toNode c = .ok () d → d.AtNode := by
    intro htoNode
    unfold toNode at htoNode
    split at htoNode
    next =>
      cases htoNode
      exact .of_join rfl
    next hoff =>
      cases htoNode
      rw [Bool.not_eq_true] at hoff
      exact hc.atNode hoff
  cases event with
  | startNode node =>
    change openNode node c = _ at h
    unfold openNode at h
    split at h
    next =>
      cases h
      exact .of_join rfl
    next =>
      split at h
      next => cases h
      next =>
        cases h
        exact .of_join rfl
  | endNode =>
    change closeNode c = _ at h
    unfold closeNode at h
    split at h
    next => cases h
    next =>
      cases h
      exact .of_join rfl
  | attr => cases hevent
  | startDocument => exact hnode h
  | endDocument => exact hnode h
  | text => exact hnode h

omit [Source σ] in
/-- An event that cannot be entered leaves the place as it is. -/
theorem enter_error {event : Event} {c d : Cursor σ} {e : WalkError}
    (h : enter event c = .error e d) : SamePlace c d := by
  rcases enter_error_cases h with ⟨_, _, _, rfl⟩ | ⟨_, rfl⟩
  · exact ⟨rfl, rfl, rfl⟩
  · exact .refl d

/-- A cursor that moves on to an event stands on it. The path goes on to an attribute, and to any
other event it is that of the open nodes. -/
theorem Fresh.advance_ok {event : Event} {c d : Cursor σ} (hc : c.Fresh)
    (h : advance c = .ok event d) : (d.onAttribute = false ∧ d.AtNode) ∨ d.AtAttribute := by
  obtain ⟨c₁, c₂, c₃, h₁, h₂, h₃, rfl⟩ := advance_eq_ok_iff.mp h
  have hfresh := (samePlace_take.of_ok h₁).fresh hc
  cases hattr : event.isAttribute with
  | true =>
    cases event with
    | attr a =>
      cases h₂
      cases h₃
      right
      exact ⟨a, rfl, congrArg (· ++ "/@" ++ a.name) (Path.join_eq_slashed c₁.names)⟩
    | startDocument | endDocument | startNode | endNode | text => cases hattr
  | false =>
    left
    have hnode := enter_atNode hfresh hattr h₂
    rw [watch, hattr] at h₃
    have hlooked := ((samePlace_lookAhead event.isText).of_ok h₃).atNode hnode
    exact ⟨hattr, hlooked⟩

/-- Where moving on fails the path still has one of its forms: nothing was entered, or an event that
is no attribute was. -/
theorem Fresh.advance_error {e : WalkError} {c d : Cursor σ} (hc : c.Fresh)
    (h : advance c = .error e d) : d.Fresh := by
  rcases advance_eq_error_iff.mp h with h₁ | ⟨event, c₁, h₁, h⟩
  · exact (samePlace_take.of_error h₁).fresh hc
  have hfresh := (samePlace_take.of_ok h₁).fresh hc
  rcases h with h₂ | ⟨c₂, h₂, h₃⟩
  · exact (enter_error h₂).fresh hfresh
  · unfold watch at h₃
    split at h₃
    next => cases h₃
    next hattr =>
      rw [Bool.not_eq_true] at hattr
      have hnode := enter_atNode hfresh hattr h₂
      exact .inl (((samePlace_lookAhead event.isText).of_error h₃).atNode hnode)

theorem Fresh.keeps_advance {c : Cursor σ} (hc : c.Fresh) : Keeps c (advance c) := by
  cases h : advance c with
  | ok event d =>
    have hd := hc.advance_ok h
    refine ⟨hd.imp And.right id, ?_⟩
    rintro _ _ _ ⟨⟩ hon
    rcases hd with ⟨hoff, _⟩ | hattr
    · cases hoff.symm.trans hon
    · exact hattr
  | error e d => exact ⟨hc.advance_error h, nofun⟩

/-! ## Every operation -/

theorem SkipsTo.keeps {target : Nat} {c : Cursor σ} {r : Outcome σ Unit} (h : SkipsTo target c r)
    (hc : c.Fresh) : Keeps c r := by
  induction h with
  | @reached c => exact (SamePlace.refl c).keeps hc
  | stopped _ hadvance => exact ⟨hc.advance_error hadvance, nofun⟩
  | @ended c d _ hadvance =>
    have hd := hc.keeps_advance
    rw [hadvance] at hd
    exact ⟨hd.fresh, nofun⟩
  | @onward c d event r _ hadvance _ _ ih =>
    have hd := hc.keeps_advance
    rw [hadvance] at hd
    have hr := ih hd.fresh
    exact ⟨hr.fresh, fun hsettled => hr.settled (hd.settled hsettled event d rfl)⟩

theorem SkipsNode.keeps {c : Cursor σ} {r : Outcome σ Unit} (h : SkipsNode c r) (hc : c.Fresh) :
    Keeps c r := by
  unfold SkipsNode at h
  split at h
  next => exact SkipsTo.keeps h hc
  next =>
    subst h
    exact (SamePlace.refl c).keeps hc

/-- Every operation keeps the path in one of its forms. -/
theorem Operation.Performs.keeps {operation : Operation} {c : Cursor σ} {r : Outcome σ Answer}
    (h : operation.Performs c r) (hc : c.Fresh) : Keeps c r := by
  cases operation with
  | advance =>
    cases h
    exact hc.keeps_advance.mapAnswer _
  | readText =>
    obtain ⟨read, hread, rfl⟩ := h
    exact (hread.samePlace.keeps hc).mapAnswer _
  | read kind =>
    obtain ⟨read, hread, rfl⟩ := h
    exact ((hread.samePlace.trans (samePlace_decodeText kind read)).keeps hc).mapAnswer _
  | skip =>
    obtain ⟨skipped, hskipped, rfl⟩ := h
    exact (hskipped.keeps hc).mapAnswer _
  | atStart =>
    cases h
    exact ((samePlace_atStart c).keeps hc).mapAnswer _
  | testAt | register =>
    cases h
    exact SamePlace.keeps ⟨rfl, rfl, rfl⟩ hc
  | look =>
    cases h
    exact (SamePlace.refl c).keeps hc

/-- A session keeps the path in one of its forms, and an attribute on it as long as nothing fails. -/
theorem Session.keeps {c d : Cursor σ} {log : List (Operation × Except WalkError Answer)}
    (h : Session c log d) (hc : c.Fresh) :
    d.Fresh ∧ (c.Settled → (∀ entry ∈ log, ∃ answer, entry.2 = .ok answer) → d.Settled) := by
  induction h with
  | rest => exact ⟨hc, fun hsettled _ => hsettled⟩
  | @step c d operation r more hperforms _ ih =>
    have hkeeps := hperforms.keeps hc
    obtain ⟨hfresh, hsettled⟩ := ih hkeeps.fresh
    refine ⟨hfresh, fun hcsettled hall => ?_⟩
    rw [List.forall_mem_cons] at hall
    obtain ⟨⟨answer, hanswer⟩, hmore⟩ := hall
    refine hsettled ?_ hmore
    cases r with
    | ok answer d => exact hkeeps.settled hcsettled answer d rfl
    | error => cases hanswer

/-- **The path is never stale.** Over any source, with any settings, and behind any operations,
whether they failed or not, the path is that of the open nodes, or the current event is an attribute
and the path goes on to it; and as long as nothing has failed it goes on to an attribute exactly when
the current event is one. -/
theorem path_of_session {source : σ} {config : Config} {headers : Option (List (String × String))}
    {log : List (Operation × Except WalkError Answer)} {c : Cursor σ}
    (h : Session (new source config headers) log c) :
    (c.path = Path.slashed c.names ∨
        ∃ a, c.current = some (.attr a) ∧ c.path = Path.slashed c.names ++ "/@" ++ a.name) ∧
      ((∀ entry ∈ log, ∃ answer, entry.2 = .ok answer) →
        ((∃ a, c.current = some (.attr a) ∧ c.path = Path.slashed c.names ++ "/@" ++ a.name) ↔
          ∃ a, c.current = some (.attr a))) := by
  obtain ⟨hfresh, hsettled⟩ := h.keeps (.inl rfl)
  refine ⟨hfresh, fun hall => ⟨?_, ?_⟩⟩
  · rintro ⟨a, ha, _⟩
    exact ⟨a, ha⟩
  · intro hattr
    exact hsettled nofun hall (onAttribute_iff.mpr hattr)

/-- A source with an attribute of its own behind a node's, and an error behind the node's end. -/
def strayScript : Script :=
  ⟨[.event (.startNode { name := "a", attributes := [⟨"id", "1"⟩] }), .event (.attr ⟨"x", "2"⟩),
    .event .endNode, .error (.json ⟨.expectedColon, 0⟩)]⟩

/-- A caller watches a place and advances to the attribute of the source. -/
def strayOperations : List Operation :=
  [.register "a" 0 "k", .advance, .advance, .advance]

/-- On the attribute of the source nothing has failed, and the path goes on to it. One advance more
enters the end of the node and fails to look ahead from there: the current event is still the
attribute, and the path is that of the open nodes. -/
theorem path_of_session_stray :
    (∃ log c, Session (new strayScript) log c ∧ (∀ entry ∈ log, ∃ answer, entry.2 = .ok answer) ∧
        ∃ a, c.current = some (.attr a) ∧ c.path = Path.slashed c.names ++ "/@" ++ a.name) ∧
      ∃ log c, Session (new strayScript) log c ∧ (∃ a, c.current = some (.attr a)) ∧
        c.path = Path.slashed c.names := by
  constructor
  · have hsession := session_answers strayOperations (new strayScript)
    have hcurrent : (Operation.after strayOperations (new strayScript)).current =
        some (.attr ⟨"x", "2"⟩) := by cbv
    have hanswers : Operation.answers strayOperations (new strayScript) =
        [.ok .done, .ok (.event (.startNode { name := "a", attributes := [⟨"id", "1"⟩] })),
          .ok (.event (.attr ⟨"id", "1"⟩)), .ok (.event (.attr ⟨"x", "2"⟩))] := by cbv
    have hall : ∀ entry ∈ strayOperations.zip (Operation.answers strayOperations (new strayScript)),
        ∃ answer, entry.2 = .ok answer := by
      rw [hanswers]
      simp [strayOperations]
    exact ⟨_, _, hsession, hall, ((path_of_session hsession).2 hall).mpr ⟨_, hcurrent⟩⟩
  · have hsession := session_answers (strayOperations ++ [.advance]) (new strayScript)
    have hcurrent : (Operation.after (strayOperations ++ [.advance]) (new strayScript)).current =
        some (.attr ⟨"x", "2"⟩) := by cbv
    have hnames : (Operation.after (strayOperations ++ [.advance]) (new strayScript)).names = [] := by
      cbv
    have hpath : (Operation.after (strayOperations ++ [.advance]) (new strayScript)).path = "" := by
      cbv
    refine ⟨_, _, hsession, ⟨_, hcurrent⟩, ?_⟩
    rcases (path_of_session hsession).1 with hnode | ⟨a, _, hattr⟩
    · exact hnode
    · rw [hpath, hnames] at hattr
      exact absurd (congrArg String.toList hattr) (by simp [Path.slashed])

end Cursor

end DocWalk
