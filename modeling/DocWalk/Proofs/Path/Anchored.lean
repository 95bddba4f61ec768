import DocWalk.Proofs.Path.Components

/-!
# Anchored patterns name places exactly

The anchored test compares the depth of a position with a number, and the end of its path with a text.
For names without slashes that are no attribute steps the two together say that, below the anchor, the
open nodes are the steps of the pattern, and that the attributes agree.

Neither comparison does alone. The text fixes which steps come last and not where the first of them
stands; the number fixes that, as attribute steps do not count. On components this is a fact about two
lists of node steps with at most an attribute step behind each (`steps_suffix_iff`). The text also
keeps the number from running over: a pattern that ends a path leads down no further than the path
does, so a sum that begins again at zero stays short of the depth (`reaches_iff_of_le`).

**The law** (`holds_compile_iff`) leaves the attribute step of the pattern free: with a slash in it, it
meets no attribute and no node.
-/

set_option autoImplicit false

namespace DocWalk

/-- A name that is one node step of a path. -/
structure IsStep (name : String) : Prop where
  slash_not_mem : '/' ∉ name.toList
  head_ne : name.toList.head? ≠ some '@'

instance (name : String) : Decidable (IsStep name) :=
  decidable_of_iff ('/' ∉ name.toList ∧ name.toList.head? ≠ some '@')
    ⟨fun h => ⟨h.1, h.2⟩, fun h => ⟨h.slash_not_mem, h.head_ne⟩⟩

namespace Path

/-- The path of open nodes, given outermost first, or of an attribute of the last of them. -/
def ofPlace (names : List String) : Option String → String
  | none => join names.reverse
  | some a => joinAttribute names.reverse a

/-- The component of an attribute. -/
def attributePart (name : String) : List Char :=
  '@' :: name.toList

theorem toList_join (names : List String) :
    (join names).toList = slashedParts (names.reverse.map String.toList) := by
  induction names with
  | nil => rfl
  | cons name outer ih =>
    rw [join, String.toList_append, String.toList_append, ih, List.reverse_cons, List.map_append,
      slashedParts_append, List.append_assoc, List.map_singleton, slashedParts_singleton]
    rfl

theorem toList_ofPlace (names : List String) (attr : Option String) :
    (ofPlace names attr).toList =
      slashedParts (names.map String.toList ++ attr.toList.map attributePart) := by
  cases attr with
  | none =>
    rw [ofPlace, toList_join, List.reverse_reverse, Option.toList_none, List.map_nil,
      List.append_nil]
  | some a =>
    rw [ofPlace, joinAttribute, String.toList_append, String.toList_append, toList_join,
      List.reverse_reverse, slashedParts_append, List.append_assoc, Option.toList_some,
      List.map_singleton, slashedParts_singleton]
    rfl

theorem slash_not_mem_placeParts {names : List String} {attr : Option String}
    (hnames : ∀ name ∈ names, IsStep name) (hattr : ∀ a ∈ attr, '/' ∉ a.toList) :
    ∀ part ∈ names.map String.toList ++ attr.toList.map attributePart, '/' ∉ part := by
  intro part hpart
  rcases List.mem_append.mp hpart with hpart | hpart
  · obtain ⟨name, hname, rfl⟩ := List.mem_map.mp hpart
    exact (hnames name hname).slash_not_mem
  · obtain ⟨a, ha, rfl⟩ := List.mem_map.mp hpart
    rw [attributePart, List.mem_cons, not_or]
    exact ⟨by decide, hattr a (Option.mem_toList.mp ha)⟩

/-! ## Which steps are nodes -/

theorem isNodeStep_of_isStep {name : String} (h : IsStep name) : isNodeStep name.toList := by
  rw [isNodeStep, decide_eq_true_eq]
  exact h.head_ne

theorem isNodeStep_map {names : List String} (h : ∀ name ∈ names, IsStep name) :
    ∀ part ∈ names.map String.toList, isNodeStep part := by
  intro part hpart
  obtain ⟨name, hname, rfl⟩ := List.mem_map.mp hpart
  exact isNodeStep_of_isStep (h name hname)

theorem not_isNodeStep_attribute (attr : Option String) :
    ∀ part ∈ attr.toList.map attributePart, ¬isNodeStep part := by
  intro part hpart
  obtain ⟨a, _, rfl⟩ := List.mem_map.mp hpart
  rw [isNodeStep, decide_eq_true_eq]
  exact not_not_intro rfl

/-- The first component of an attribute step is no node step. -/
theorem not_isNodeStep_head_attribute (attrStep : Option String) :
    ∀ part ∈ (attrStep.toList.flatMap (components ∘ attributePart)).head?, ¬isNodeStep part := by
  cases attrStep with
  | none => exact nofun
  | some b =>
    obtain ⟨first, others, hfirst, hnode⟩ := exists_components_cons (attributePart b)
    rw [Option.toList_some, List.flatMap_singleton, Function.comp_apply, hfirst]
    rintro part ⟨⟩
    rw [hnode]
    exact not_not_intro rfl

/-! ## Steps in a row -/

section

variable {nodes attrs steps behind front : List (List Char)} {anchor : Nat}

/-- Where the steps of a pattern come last, its attribute step is that of the place. -/
theorem eq_of_append_eq (hnodes : ∀ part ∈ nodes, isNodeStep part)
    (hattrs : ∀ part ∈ attrs, ¬isNodeStep part) (hlength : attrs.length ≤ 1)
    (hsteps : ∀ part ∈ steps, isNodeStep part) (hbehind : ∀ part ∈ behind.head?, ¬isNodeStep part)
    (hsome : steps ++ behind ≠ []) (h : front ++ (steps ++ behind) = nodes ++ attrs) :
    attrs = behind ∧ nodes = front ++ steps := by
  cases behind with
  | nil =>
    rw [List.append_nil] at h hsome
    rcases List.eq_nil_or_concat attrs with rfl | ⟨before, last, rfl⟩
    · rw [List.append_nil] at h
      exact ⟨rfl, h.symm⟩
    · -- The last step of the pattern would be the attribute.
      obtain ⟨others, step, rfl⟩ := (List.eq_nil_or_concat steps).resolve_left hsome
      rw [List.concat_eq_append, List.concat_eq_append, ← List.append_assoc,
        ← List.append_assoc] at h
      obtain ⟨_, hlast⟩ := List.append_inj' h rfl
      cases hlast
      exact absurd (hsteps last (by simp)) (hattrs last (by simp))
  | cons first rest =>
    rw [← List.append_assoc] at h
    rcases List.append_eq_append_iff.mp h with ⟨more, hmore, hrest⟩ | ⟨more, hmore, hrest⟩
    · cases more with
      | nil =>
        rw [List.append_nil] at hmore
        exact ⟨hrest.symm, hmore⟩
      | cons part others =>
        -- The first part behind the steps would be a node of the place.
        cases hrest
        rw [hmore] at hnodes
        exact absurd (hnodes first (by simp)) (hbehind first rfl)
    · rw [hrest, List.length_append, List.length_cons] at hlength
      obtain rfl : more = [] := List.length_eq_zero_iff.mp (by omega)
      rw [List.append_nil] at hmore
      exact ⟨hrest, hmore.symm⟩

/-- Steps that end a place lead down no further than the place does. -/
theorem countP_le_of_suffix (hattrs : ∀ part ∈ attrs, ¬isNodeStep part)
    (h : steps <:+ nodes ++ attrs) : steps.countP isNodeStep ≤ nodes.length := by
  have hle := h.sublist.countP_le (p := isNodeStep)
  rw [List.countP_append, List.countP_eq_zero.mpr hattrs, Nat.add_zero] at hle
  exact Nat.le_trans hle List.countP_le_length

/-- Node steps, and at most an attribute step behind them, meet the end of a place at a depth counted
in node steps just where they are all of it from that depth on. -/
theorem steps_suffix_iff (hnodes : ∀ part ∈ nodes, isNodeStep part)
    (hattrs : ∀ part ∈ attrs, ¬isNodeStep part) (hlength : attrs.length ≤ 1)
    (hsteps : ∀ part ∈ steps, isNodeStep part) (hbehind : ∀ part ∈ behind.head?, ¬isNodeStep part)
    (hsome : steps ++ behind ≠ []) :
    anchor + (steps ++ behind).countP isNodeStep = nodes.length ∧
        steps ++ behind <:+ nodes ++ attrs ↔
      anchor ≤ nodes.length ∧ nodes.drop anchor = steps ∧ attrs = behind := by
  have hcount : (steps ++ attrs).countP isNodeStep = steps.length := by
    rw [List.countP_append, List.countP_eq_length.mpr hsteps, List.countP_eq_zero.mpr hattrs,
      Nat.add_zero]
  constructor
  · rintro ⟨hdepth, front, hfront⟩
    obtain ⟨rfl, rfl⟩ := eq_of_append_eq hnodes hattrs hlength hsteps hbehind hsome hfront
    rw [hcount, List.length_append] at hdepth
    obtain rfl : anchor = front.length := Nat.add_right_cancel hdepth
    refine ⟨?_, List.drop_left, rfl⟩
    rw [List.length_append]
    exact Nat.le_add_right _ _
  · rintro ⟨hle, hdrop, rfl⟩
    constructor
    · rw [hcount, ← hdrop, List.length_drop, Nat.add_sub_cancel' hle]
    · refine ⟨nodes.take anchor, ?_⟩
      rw [← List.append_assoc, ← hdrop, List.take_append_drop]

end

end Path

namespace Pattern

open DocWalk.Path

/-- The text of a pattern made of node steps and an attribute step, or none, behind them. -/
def ofSteps (steps : List String) (attrStep : Option String) : String :=
  "/".intercalate (steps ++ (attrStep.map ("@" ++ ·)).toList)

theorem components_ofSteps {steps : List String} {attrStep : Option String}
    (hsteps : ∀ step ∈ steps, IsStep step) (hsome : steps ≠ [] ∨ attrStep.isSome) :
    components (ofSteps steps attrStep).toList =
      steps.map String.toList ++ attrStep.toList.flatMap (components ∘ attributePart) := by
  have hne : (steps ++ (attrStep.map ("@" ++ ·)).toList).map String.toList ≠ [] := by
    rcases hsome with hsome | hsome
    · simp [hsome]
    · obtain ⟨b, rfl⟩ := Option.isSome_iff_exists.mp hsome
      simp
  rw [ofSteps, String.toList_intercalate]
  show components (['/'].intercalate _) = _
  rw [components_intercalate hne, List.map_append, List.flatMap_append, flatMap_components]
  · cases attrStep with
    | none => rfl
    | some b => simp [attributePart]
  · intro part hpart
    obtain ⟨step, hstep, rfl⟩ := List.mem_map.mp hpart
    exact (hsteps step hstep).slash_not_mem

/-- An attribute step is met by the attribute of its name only. -/
theorem map_attributePart_eq_iff {attr attrStep : Option String}
    (hattr : ∀ a ∈ attr, '/' ∉ a.toList) :
    attr.toList.map attributePart = attrStep.toList.flatMap (components ∘ attributePart) ↔
      attr = attrStep := by
  have hpart : ∀ a ∈ attr, components (attributePart a) = [attributePart a] := by
    intro a ha
    apply components_of_not_mem
    simpa [attributePart] using hattr a ha
  cases attrStep with
  | none => simp
  | some b =>
    rw [Option.toList_some, List.flatMap_singleton, Function.comp_apply]
    cases attr with
    | none => simpa using (components_ne_nil (attributePart b)).symm
    | some a =>
      rw [Option.toList_some, List.map_singleton, Option.some.injEq]
      constructor
      · intro h
        -- Joined again, both are the part of an attribute.
        have hjoined := congrArg slashedParts h
        rw [slashedParts_components, slashedParts_singleton] at hjoined
        exact String.toList_injective (List.tail_eq_of_cons_eq (List.tail_eq_of_cons_eq hjoined))
      · rintro rfl
        exact (hpart a rfl).symm

/-- The anchored test compares a number and a text. -/
theorem holds_iff {pattern : Pattern} (hne : pattern.text ≠ currentNode) {here : Position}
    {anchor : Nat} : pattern.holds here anchor ↔
      reaches anchor pattern.steps here.depth ∧
        '/' :: pattern.text.toList <:+ here.path.toList := by
  rw [holds, decide_eq_false hne, Bool.false_or, Bool.and_eq_true, endsWith,
    List.isSuffixOf_iff_suffix, anchored, String.toList_append]
  rfl

/-- Levels that are no more than the depth reach it from an anchor only by their sum. -/
theorem reaches_iff_of_le {anchor levels depth : Nat} (hanchor : anchor < UInt64.size)
    (hdepth : depth < UInt64.size) (hle : levels ≤ depth) :
    reaches anchor levels depth ↔ anchor + levels = depth := by
  rw [reaches, decide_eq_true_eq, ← UInt64.toNat_inj, UInt64.toNat_add, UInt64.toNat_ofNat',
    UInt64.toNat_ofNat', UInt64.toNat_ofNat']
  unfold UInt64.size at hanchor hdepth
  omega

/-- One level down is the next depth. -/
theorem reaches_succ (anchor : Nat) : reaches anchor 1 (anchor + 1) := by
  rw [reaches, decide_eq_true_eq, UInt64.ofNat_add]

/-- **Anchored matching is exact.** Of a place with plain names, on a node or on an attribute without
slashes, a pattern of plain steps with an attribute step behind them or none is true just where its
steps are the open nodes below the anchor and its attribute step is the attribute. Anchor and depth
are any numbers that a word holds. -/
theorem holds_compile_iff {names steps : List String} {attr attrStep : Option String}
    (hnames : ∀ name ∈ names, IsStep name) (hattr : ∀ a ∈ attr, '/' ∉ a.toList)
    (hsteps : ∀ step ∈ steps, IsStep step) (hsome : steps ≠ [] ∨ attrStep.isSome)
    (hne : ofSteps steps attrStep ≠ currentNode) {anchor : Nat} (hanchor : anchor < UInt64.size)
    (hdepth : names.length < UInt64.size) :
    (compile (ofSteps steps attrStep)).holds ⟨ofPlace names attr, names.length⟩ anchor ↔
      anchor ≤ names.length ∧ names.drop anchor = steps ∧ attr = attrStep := by
  have hcomponents := components_ofSteps hsteps hsome
  have hsomewhere := components_ne_nil (ofSteps steps attrStep).toList
  rw [hcomponents] at hsomewhere
  have hlength : (attr.toList.map attributePart).length ≤ 1 := by
    cases attr <;> simp
  have hpattern : (compile (ofSteps steps attrStep)).text ≠ currentNode := hne
  rw [holds_iff hpattern]
  show reaches anchor (levels (ofSteps steps attrStep).toList) names.length ∧
    '/' :: (ofSteps steps attrStep).toList <:+ (ofPlace names attr).toList ↔ _
  rw [levels_eq_countP, toList_ofPlace,
    suffix_slashed_iff (slash_not_mem_placeParts hnames hattr), hcomponents,
    ← List.length_map String.toList]
  rw [← List.length_map String.toList] at hdepth
  rw [and_congr_left fun hsuffix =>
      reaches_iff_of_le hanchor hdepth (countP_le_of_suffix (not_isNodeStep_attribute attr) hsuffix),
    steps_suffix_iff (isNodeStep_map hnames) (not_isNodeStep_attribute attr) hlength
      (isNodeStep_map hsteps) (not_isNodeStep_head_attribute attrStep) hsomewhere,
    ← List.map_drop, List.map_inj_right fun _ _ h => String.toList_injective h,
    map_attributePart_eq_iff hattr]

/-- Below the first of three nodes, the second of which has an empty name. -/
theorem holds_compile_iff_empty_name :
    ofSteps ["", "b"] (some "id") = "/b/@id" ∧ ofPlace ["a", "", "b"] (some "id") = "/a//b/@id" ∧
      (compile (ofSteps ["", "b"] (some "id"))).holds
        ⟨ofPlace ["a", "", "b"] (some "id"), ["a", "", "b"].length⟩ 1 := by
  refine ⟨by decide, by decide, ?_⟩
  have hnames : ∀ name ∈ ["a", "", "b"], IsStep name := by decide
  have hsteps : ∀ step ∈ ["", "b"], IsStep step := by decide
  have hattr : ∀ a ∈ some "id", '/' ∉ a.toList := by decide
  have hne : ofSteps ["", "b"] (some "id") ≠ currentNode := by decide
  rw [holds_compile_iff hnames hattr hsteps (.inl (List.cons_ne_nil _ _)) hne (by decide)
    (by decide)]
  exact ⟨by decide, rfl, rfl⟩

end Pattern

end DocWalk
