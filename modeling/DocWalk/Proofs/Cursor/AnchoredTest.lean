import DocWalk.Proofs.Cursor.DepthFirst
import DocWalk.Proofs.Cursor.Settings
import DocWalk.Proofs.Json.Completeness
import DocWalk.Proofs.Path.Anchored

/-!
# Anchored tests at a node

A path is joined of names as they are, and an anchored test compares its end. A name may hold slashes
itself: any text is the key of some JSON object. At a node, a pattern of one step read from the node
around it then means what stands behind the last slash of the node's name, which is the whole name
where there is none.

**The law** (`testAt_startNode_iff`) holds over any source and behind any operations, whether they
failed or not, and however much was asked at the node before.
-/

set_option autoImplicit false

namespace DocWalk

open DocWalk.Path

/-- A text without slashes behind a slash ends a path where it is the last name, or stands behind a
slash at the end of that name. -/
theorem Path.suffix_join_cons_iff {step : String} (hstep : '/' ∉ step.toList) (name : String)
    (outer : List String) : '/' :: step.toList <:+ (join (name :: outer)).toList ↔
      name = step ∨ '/' :: step.toList <:+ name.toList := by
  have hjoin : (join (name :: outer)).toList = (join outer).toList ++ '/' :: name.toList := by
    rw [join, String.toList_append, String.toList_append, List.append_assoc]
    rfl
  have hname : '/' :: name.toList <:+ (join (name :: outer)).toList := by
    rw [hjoin]
    exact List.suffix_append _ _
  constructor
  · intro h
    rcases List.suffix_or_suffix_of_suffix h hname with h | h
    · rcases List.suffix_cons_iff.mp h with h | h
      · exact .inl (String.toList_injective (List.tail_eq_of_cons_eq h)).symm
      · exact .inr h
    · rcases List.suffix_cons_iff.mp h with h | h
      · exact .inl (String.toList_injective (List.tail_eq_of_cons_eq h))
      · exact absurd (h.subset List.mem_cons_self) hstep
  · rintro (rfl | h)
    · exact hname
    · exact (h.trans (List.suffix_cons _ _)).trans hname

/-- A pattern of one step leads one level down. -/
theorem Pattern.holds_compile_step_iff {step : String} (hstep : IsStep step)
    (hne : step ≠ currentNode) {here : Position} {anchor : Nat} :
    (compile step).holds here anchor ↔
      reaches anchor 1 here.depth ∧ '/' :: step.toList <:+ here.path.toList := by
  have hlevels : levels step.toList = 1 := by
    rw [levels_eq_countP, components_of_not_mem hstep.slash_not_mem, List.countP_singleton,
      if_pos (isNodeStep_of_isStep hstep)]
  have hpattern : (compile step).text ≠ currentNode := hne
  rw [holds_iff hpattern]
  show reaches anchor (levels step.toList) _ ∧ _ ↔ _
  rw [hlevels]
  rfl

namespace Cursor

variable {σ : Type} [Source σ]

/-! ## Staying at an event -/

/-- An operation that does not go on to another event. -/
def Operation.Stays (operation : Operation) : Prop :=
  operation ≠ .advance ∧ operation ≠ .skip

theorem Operation.Performs.samePlace {operation : Operation} {c : Cursor σ} {r : Outcome σ Answer}
    (h : operation.Performs c r) (hstays : operation.Stays) : SamePlace c r.left := by
  cases operation with
  | advance => exact absurd rfl hstays.1
  | skip => exact absurd rfl hstays.2
  | readText =>
    obtain ⟨read, hread, rfl⟩ := h
    rw [EStateM.Result.left_mapAnswer]
    exact hread.samePlace
  | read kind =>
    obtain ⟨read, hread, rfl⟩ := h
    rw [EStateM.Result.left_mapAnswer]
    exact hread.samePlace.trans (samePlace_decodeText kind read)
  | atStart =>
    subst h
    rw [EStateM.Result.left_mapAnswer]
    exact samePlace_atStart c
  | testAt | register | look =>
    subst h
    exact ⟨rfl, rfl, rfl⟩

theorem Session.samePlace {c d : Cursor σ} {log : List (Operation × Except WalkError Answer)}
    (h : Session c log d) (hstays : ∀ entry ∈ log, entry.1.Stays) : SamePlace c d := by
  induction h with
  | rest => exact .refl _
  | step hperforms _ ih =>
    obtain ⟨hfirst, hmore⟩ := List.forall_mem_cons.mp hstays
    exact (hperforms.samePlace hfirst).trans (ih hmore)

/-- At the start of a node the node is the innermost that is open, and the path ends with its name. -/
theorem advance_startNode {node : Node} {c d : Cursor σ} (h : advance c = .ok (.startNode node) d) :
    d.names = node.name :: c.names ∧ d.path = join (node.name :: c.names) := by
  obtain ⟨c₁, c₂, c₃, h₁, h₂, h₃, rfl⟩ := advance_eq_ok_iff.mp h
  have htake := (samePlace_take.of_ok h₁).names_eq
  have hwatch := (samePlace_watch _).of_ok h₃
  have hopen : c₂.names = node.name :: c₁.names ∧ c₂.path = join (node.name :: c₁.names) := by
    change openNode node c₁ = _ at h₂
    unfold openNode at h₂
    dsimp only at h₂
    split at h₂
    next =>
      cases h₂
      exact ⟨rfl, rfl⟩
    next =>
      split at h₂ <;> cases h₂
      exact ⟨rfl, rfl⟩
  rw [htake] at hopen
  exact ⟨hwatch.names_eq.trans hopen.1, hwatch.path_eq.trans hopen.2⟩

/-- To walk is to advance again and again. -/
theorem Walks.session {c d : Cursor σ} {shown : List Visit} (h : Walks c shown d) :
    Session c (shown.map fun visit => (.advance, .ok (.event visit.event))) d := by
  induction h with
  | rest => exact .rest _
  | @step c d _ event _ hadvance _ ih =>
    have hperforms : Operation.advance.Performs c (.ok (.event event) d) := by
      show _ = (advance c).mapAnswer _
      rw [hadvance]
      rfl
    exact .step hperforms ih

/-! ## The test -/

/-- **An anchored test of one step** at a node, read from the node around it, is true just where the
step is the name of the node or what stands behind a slash at the end of the name. For a name without
slashes it is true just where the step is the name. -/
theorem testAt_startNode_iff {source : σ} {config : Config}
    {headers : Option (List (String × String))}
    {before asked : List (Operation × Except WalkError Answer)} {c d f : Cursor σ} {node : Node}
    {step : String} (hbefore : Session (new source config headers) before c)
    (hadvance : advance c = .ok (.startNode node) d) (hasked : Session d asked f)
    (hstays : ∀ entry ∈ asked, entry.1.Stays) (hstep : IsStep step) (hne : step ≠ currentNode) :
    ((f.testAt step (f.depth - 1)).1 ↔
        ∃ name, f.parent? = some name ∧ (name = step ∨ '/' :: step.toList <:+ name.toList)) ∧
      ('/' ∉ node.name.toList →
        ((f.testAt step (f.depth - 1)).1 ↔ f.parent? = some step)) := by
  have hfaithful : f.patterns.Faithful := by
    have hc := hbefore.faithful (PatternCache.faithful_empty _)
    have hd : d.patterns.Faithful := by
      rwa [(sameSettings_advance.of_ok hadvance).patterns_eq]
    exact hasked.faithful hd
  obtain ⟨hnames, hpath⟩ := advance_startNode hadvance
  have hplace := hasked.samePlace hstays
  rw [← hplace.names_eq] at hnames
  rw [← hplace.path_eq] at hpath
  have hparent : f.parent? = some node.name := by
    rw [parent?, hnames, List.head?_cons]
  have hdepth : Pattern.reaches (f.depth - 1) 1 f.depth := by
    rw [depth, hnames, List.length_cons, Nat.add_sub_cancel]
    exact Pattern.reaches_succ _
  have htest : (f.testAt step (f.depth - 1)).1 ↔
      node.name = step ∨ '/' :: step.toList <:+ node.name.toList := by
    rw [testAt_eq hfaithful, Pattern.holds_compile_step_iff hstep hne, position, hpath,
      suffix_join_cons_iff hstep.slash_not_mem]
    exact and_iff_right hdepth
  rw [htest, hparent]
  constructor
  · constructor
    · exact fun h => ⟨node.name, rfl, h⟩
    · rintro ⟨_, ⟨⟩, h⟩
      exact h
  · intro hslash
    rw [Option.some.injEq]
    refine or_iff_left fun h => hslash (h.subset List.mem_cons_self)

open Json (Tokenizer)

section

open Json.Grammar

/-- A document with a slash in a key, and a node in the value of that key. -/
def slashedKey : String :=
  r#"{"a/b":{"c":1}}"#

theorem isText_slashedKey :
    IsText (.object [("a/b", .object [("c", .number "1")])]) slashedKey := by
  have number : Number ['1'] :=
    @Number.mk [] ['1'] [] [] (by decide)
      (.digits ⟨by decide, List.all_eq_true.mp rfl⟩ (by decide)) .absent .absent
  have inner : Quoted "c" ['"', 'c', '"'] := @Quoted.mk "c" ['c'] (.raw rfl .nil)
  have outer : Quoted "a/b" ['"', 'a', '/', 'b', '"'] :=
    @Quoted.mk "a/b" ['a', '/', 'b'] (.raw rfl (.raw rfl (.raw rfl .nil)))
  have object := Written.object (.one (@Member.mk "c" _ [] _ [] _ nofun inner nofun
    (@Spaced.mk _ [] _ [] nofun (.scalar (.number number)) nofun)))
  have document := Written.object (.one (@Member.mk "a/b" _ [] _ [] _ nofun outer nofun
    (@Spaced.mk _ [] _ [] nofun object nofun)))
  exact @Spaced.mk _ [] _ [] nofun document nofun

end

theorem emits_slashedKey : Source.Emits (Tokenizer.ofText slashedKey)
    (.startDocument :: flattenAll [.node { name := "a/b" } [.node { name := "c" } [.text "1"]]]) :=
  Tokenizer.emits_ofText isText_slashedKey

/-- The nodes of the two keys are reached by advancing. -/
theorem advance_slashedKey :
    ∃ c d f, advance (new (Tokenizer.ofText slashedKey)) = .ok .startDocument c ∧
      advance c = .ok (.startNode { name := "a/b" }) d ∧ d.position = ⟨"/a/b", 1⟩ ∧
      advance d = .ok (.startNode { name := "c" }) f := by
  have hstart : InFront (new (Tokenizer.ofText slashedKey)) [] [] _ :=
    ⟨emits_slashedKey, rfl, rfl, fun _ => rfl, rfl⟩
  obtain ⟨c, hc, _, hfront⟩ := hstart.event rfl nofun
  obtain ⟨d, hd, hposition, hfront⟩ := hfront.event rfl nofun
  obtain ⟨f, hf, _⟩ := hfront.event rfl nofun
  exact ⟨c, d, f, hc, hd, hposition, hf⟩

/-- At the node of that key a pattern is true that is not the name of the node. -/
theorem testAt_slashedKey :
    ∃ c d, Walks (new (Tokenizer.ofText slashedKey)) [⟨.startDocument, c.position⟩] c ∧
      advance c = .ok (.startNode { name := "a/b" }) d ∧ IsStep "b" ∧ "b" ≠ currentNode ∧
      ¬((d.testAt "b" (d.depth - 1)).1 ↔ d.parent? = some "b") := by
  obtain ⟨c, d, _, hc, hd, hposition, _⟩ := advance_slashedKey
  have hfaithful : d.patterns.Faithful :=
    (Walks.step hc (.single hd)).session.faithful (PatternCache.faithful_empty _)
  have hdepth : d.depth = 1 := congrArg Position.depth hposition
  have hparent : d.parent? = some "a/b" := by
    rw [parent?, (advance_startNode hd).1, List.head?_cons]
  have htest : (d.testAt "b" (d.depth - 1)).1 = true := by
    rw [testAt_eq hfaithful, hposition, hdepth]
    show (Pattern.compile "b").holds ⟨"/a/b", 1⟩ 0 = true
    decide
  refine ⟨c, d, .single hc, hd, by decide, by decide, ?_⟩
  rw [htest, hparent]
  decide

/-- At that node the pattern is what stands behind the slash, and at the node in its value it is the
name, whatever was tested there before. -/
theorem testAt_startNode_iff_slashedKey :
    ∃ c d f : Cursor Tokenizer, advance c = .ok (.startNode { name := "a/b" }) d ∧
      (d.testAt "b" (d.depth - 1)).1 ∧
      advance d = .ok (.startNode { name := "c" }) f ∧
      ((f.testAt "b" 0).2.testAt "c" ((f.testAt "b" 0).2.depth - 1)).1 := by
  obtain ⟨c, d, f, hc, hd, _, hf⟩ := advance_slashedKey
  have hasked : Session f [(.testAt "b" 0, .ok (.flag (f.testAt "b" 0).1))] (f.testAt "b" 0).2 := by
    have hperforms : (Operation.testAt "b" 0).Performs f
        (.ok (.flag (f.testAt "b" 0).1) (f.testAt "b" 0).2) := rfl
    exact .step hperforms (.rest _)
  have hstays : ∀ entry ∈ [(Operation.testAt "b" 0,
      (.ok (.flag (f.testAt "b" 0).1) : Except WalkError Answer))], entry.1.Stays := by
    intro entry hentry
    rw [List.mem_singleton.mp hentry]
    exact ⟨nofun, nofun⟩
  have hb : IsStep "b" := by decide
  have hplain : IsStep "c" := by decide
  have hname : d.parent? = some "a/b" := congrArg List.head? (advance_startNode hd).1
  have houter := testAt_startNode_iff (Walks.single hc).session hd (.rest d)
    (List.forall_mem_nil _) hb (by decide)
  have hinner := testAt_startNode_iff (Walks.step hc (.single hd)).session hf hasked hstays hplain
    (by decide)
  refine ⟨c, d, f, hd, ?_, hf, ?_⟩
  · exact houter.1.mpr ⟨"a/b", hname, .inr (by decide)⟩
  · exact (hinner.2 (by decide)).mpr (congrArg List.head? (advance_startNode hf).1)

end Cursor

end DocWalk
