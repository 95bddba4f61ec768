import DocWalk.Proofs.Cursor.Refusal

/-!
# A limit on the depth

A cursor with a limit is a cursor without, up to the first node that the limit refuses. The two are
in the same state but for the limit (`Limits`), and each advance ends alike on both sides or is
refused on the one (`advance_limited`).

**The law** (`limit_exact`) compares the two walks over a whole document. They show the same to the
end, or the one stops in front of the first visit that goes a level over the limit, and stays where
it is. What comes after a refusal, or after any other failure, is bound by the limit as well.
-/

set_option autoImplicit false

namespace DocWalk.Cursor

open EStateM

variable {σ : Type}

/-! ## Draining any source -/

/-- What moving on to the end or an error comes to: what was visited, and how it ended. -/
inductive DrainsTo [Source σ] : Cursor σ → List Visit → Outcome σ Unit → Prop where
  | stopped {c d : Cursor σ} {e : WalkError} : advance c = .error e d →
      DrainsTo c [] (.error e d)
  | ended {c d : Cursor σ} : advance c = .ok .endDocument d →
      DrainsTo c [⟨.endDocument, d.position⟩] (.ok () d)
  | onward {c d : Cursor σ} {event : Event} {visits : List Visit} {r : Outcome σ Unit} :
      advance c = .ok event d → event ≠ .endDocument → DrainsTo d visits r →
      DrainsTo c (⟨event, d.position⟩ :: visits) r

theorem drain_stop [FiniteSource σ] {c d : Cursor σ} {e : WalkError} (h : advance c = .error e d) :
    drain c = ([], .error e d) := by
  rw [drain]
  split
  next hfail =>
    cases h.symm.trans hfail
    rfl
  next hgo => cases h.symm.trans hgo

/-- Over a finite source to drain is to come to that end. -/
theorem drainsTo_iff [FiniteSource σ] {c : Cursor σ} {visits : List Visit} {r : Outcome σ Unit} :
    DrainsTo c visits r ↔ drain c = (visits, r) := by
  constructor
  · intro h
    induction h with
    | stopped hadvance => exact drain_stop hadvance
    | ended hadvance => exact drain_end hadvance
    | onward hadvance hne _ ih => rw [drain_go hadvance hne, ih]
  · rintro h
    obtain ⟨rfl, rfl⟩ := Prod.mk.inj h
    clear h
    fun_induction drain c with
    | case1 c e d hadvance => exact .stopped hadvance
    | case2 c d hadvance => exact .ended hadvance
    | case3 c event d hadvance hne shown outcome hdrain ih =>
      rw [hdrain] at ih
      exact .onward hadvance hne ih

/-- To drain is to walk, and to drain from there. -/
theorem DrainsTo.of_walks [Source σ] {c d : Cursor σ} {shown visits : List Visit}
    {r : Outcome σ Unit} (h : Walks c shown d)
    (hshown : ∀ visit ∈ shown, visit.event ≠ .endDocument) (hdrains : DrainsTo d visits r) :
    DrainsTo c (shown ++ visits) r := by
  induction h with
  | rest => exact hdrains
  | step hadvance _ ih =>
    rw [List.forall_mem_cons] at hshown
    exact .onward hadvance hshown.1 (ih hshown.2 hdrains)

/-! ## With a limit and without -/

/-- The cursor with a limit. -/
def limited (limit : Nat) (c : Cursor σ) : Cursor σ :=
  { c with config := c.config.withMaxDepth limit }

/-- The second cursor is the first with a limit. -/
inductive Limits (limit : Nat) (c : Cursor σ) : Cursor σ → Prop where
  | mk : Limits limit c (c.limited limit)

theorem Limits.source {limit : Nat} {c d : Cursor σ} (h : Limits limit c d) :
    c.source = d.source := by
  obtain ⟨⟩ := h
  rfl

theorem Limits.withSources {limit : Nat} {c d : Cursor σ} (h : Limits limit c d) {s t : σ}
    (hst : s = t) : Limits limit { c with source := s } { d with source := t } := by
  obtain ⟨⟩ := h
  subst hst
  exact .mk

theorem limited_watching (source : σ) (config : Config) (headers : Option (List (String × String)))
    (expressions : List Expression) (limit : Nat) :
    (watching source config headers expressions).limited limit =
      watching source (config.withMaxDepth limit) headers expressions := by
  rw [watching_eq, watching_eq]
  rfl

section

variable {limit : Nat}

/-- A node that is not too deep opens with a limit as without. -/
theorem limits_openNode {node : Node} {c : Cursor σ} (hnone : c.config.maxDepth = none)
    (hfits : c.depth < limit) :
    (openNode node c).Alike (Limits limit) (openNode node (c.limited limit)) := by
  unfold openNode
  rw [hnone]
  show Result.Alike _ _ (if limit ≤ c.depth then _ else _)
  rw [if_neg (Nat.not_le.mpr hfits)]
  exact .ok .mk

variable [Source σ]

theorem congruent_limits (limit : Nat) : Congruent (Limits limit : Cursor σ → Cursor σ → Prop) where
  kept_eq := by
    rintro c _ ⟨⟩
    rfl
  keep := by
    rintro c _ ⟨⟩ k
    exact .mk
  peek := agree_ask (.refl _) Limits.source Limits.withSources
  next := agree_ask (.refl _) Limits.source Limits.withSources
  testAt_eq := by
    rintro c _ ⟨⟩ pattern anchor
    rfl
  testAt := by
    rintro c _ ⟨⟩ pattern anchor
    exact .mk

/-- **One advance**: with a limit it ends as without, or the next node is refused. -/
theorem advance_limited (limit : Nat) {c : Cursor σ} (hnone : c.config.maxDepth = none) :
    (advance c).Alike (Limits limit) (advance (c.limited limit)) ∨
      ∃ node s, (c.limited limit).Refuses node limit s := by
  by_cases hrefuses : ∃ node s, (c.limited limit).Refuses node limit s
  · exact .inr hrefuses
  left
  have congruent := congruent_limits (σ := σ) limit
  refine (congruent.take c _ .mk).bind fun event d _ htake hlimits => ?_
  obtain ⟨⟩ := hlimits
  have hconfig := (sameSettings_take.of_ok htake).config_eq
  have henter : (enter event d).Alike (Limits limit) (enter event (d.limited limit)) := by
    refine congruent.enter .mk fun node hstart => limits_openNode (hconfig ▸ hnone) ?_
    by_contra hdeep
    subst hstart
    obtain ⟨hattributes, s, hnext, rfl⟩ := take_eq_startNode_iff.mp htake
    exact hrefuses ⟨node, s, hattributes, hnext, rfl, Nat.not_lt.mp hdeep⟩
  refine henter.bind fun _ f _ _ hlimits => ?_
  exact ((congruent.watch event).bind fun _ => congruent.arrive event) f _ hlimits

/-- Where a cursor without a limit goes on, one with a limit goes on to the same, or it refuses the
node, which is one level over the limit. -/
theorem advance_limited_of_ok {c d : Cursor σ} {event : Event} (hnone : c.config.maxDepth = none)
    (hdepth : c.depth ≤ limit) (hadvance : advance c = .ok event d) :
    (advance (c.limited limit) = .ok event (d.limited limit) ∧ d.config.maxDepth = none ∧
        d.depth ≤ limit) ∨
      ∃ node s, (c.limited limit).Refuses node limit s ∧ event = .startNode node ∧
        d.depth = limit + 1 := by
  rcases advance_limited limit hnone with halike | ⟨node, s, hrefuses⟩
  · left
    rw [hadvance] at halike
    generalize hlimited : advance (c.limited limit) = r at halike
    obtain ⟨⟨⟩⟩ | _ := halike
    have hwithin : Within limit (d.limited limit) :=
      staysWithin_advance.of_ok hlimited ⟨rfl, hdepth⟩
    have hconfig := (sameSettings_advance.of_ok hadvance).config_eq
    exact ⟨rfl, hconfig ▸ hnone, hwithin.depth_le⟩
  · right
    have htake : take c = .ok (.startNode node) { c with source := s } :=
      take_eq_startNode_iff.mpr ⟨hrefuses.attributes_eq, s, hrefuses.next_eq, rfl⟩
    obtain ⟨_, _, _, htaken, _⟩ := advance_eq_ok_iff.mp hadvance
    cases htake.symm.trans htaken
    have hstep : d.depth = c.depth + 1 := advance_depth hadvance
    have hfull : c.depth = limit := Nat.le_antisymm hdepth hrefuses.limit_le
    exact ⟨node, s, hrefuses, rfl, hfull ▸ hstep⟩

/-! ## Whole walks -/

/-- **Two walks.** A walk to the end stays within the limit, and is the same with it; or with the
limit it stops, and stays where it is, in front of the first visit over it. -/
theorem DrainsTo.limited {c last : Cursor σ} {visits : List Visit}
    (h : DrainsTo c visits (.ok () last)) (hnone : c.config.maxDepth = none)
    (hdepth : c.depth ≤ limit) :
    (∀ visit ∈ visits, visit.position.depth ≤ limit) ∧
        DrainsTo (c.limited limit) visits (.ok () (last.limited limit)) ∨
      ∃ before node path after told d f,
        visits = before ++ ⟨.startNode node, ⟨path, limit + 1⟩⟩ :: after ∧
        (∀ visit ∈ before, visit.event ≠ .endDocument ∧ visit.position.depth ≤ limit) ∧
        Walks (c.limited limit) before d ∧ advance d = .error (.tooDeep told limit) f ∧
        SamePlace d f := by
  generalize hr : (.ok () last : Outcome σ Unit) = r at h
  induction h with
  | stopped => cases hr
  | @ended c d hadvance =>
    cases hr
    rcases advance_limited_of_ok hnone hdepth hadvance with ⟨hlimited, _, hle⟩ | ⟨_, _, _, hne, _⟩
    · exact .inl ⟨List.forall_mem_singleton.mpr hle, .ended hlimited⟩
    · cases hne
  | @onward c d event visits r hadvance hne _ ih =>
    rcases advance_limited_of_ok hnone hdepth hadvance with
      ⟨hlimited, hnone', hle⟩ | ⟨node, s, hrefuses, rfl, hover⟩
    · rcases ih hnone' hle hr with
        ⟨hall, hdrains⟩ | ⟨before, node, path, after, told, e, f, rfl, hbefore, hwalks, hstop⟩
      · have hstep := DrainsTo.onward hlimited hne hdrains
        exact .inl ⟨List.forall_mem_cons.mpr ⟨hle, hall⟩, hstep⟩
      · have hstep := Walks.step hlimited hwalks
        refine .inr ⟨_ :: before, node, path, after, told, e, f, rfl, ?_, hstep, hstop⟩
        exact List.forall_mem_cons.mpr ⟨⟨hne, hle⟩, hbefore⟩
    · have hrefused := advance_eq_tooDeep_iff.mpr ⟨node, s, hrefuses, rfl, rfl⟩
      refine .inr ⟨[], node, d.path, visits, _, _, _, ?_, List.forall_mem_nil _, .rest _,
        hrefused, ⟨rfl, rfl, rfl⟩⟩
      rw [List.nil_append, position, hover]

/-- **A limit on the depth is exact.** Without a limit a cursor over a document drains the whole of
it. Over any source that is drained to the end so, a cursor with a limit shows the same to the end,
if nothing lies over the limit. Else it shows what is in front of the first node over the limit, and
refuses that node, with names, path and current event as they were. And in every session with a
limit, over any source and behind any failure, the depth is within the limit. -/
theorem limit_exact (source : σ) (config : Config) (headers : Option (List (String × String)))
    (expressions : List Expression) (hnone : config.maxDepth = none) (limit : Nat) :
    (∀ forest, Source.Emits source (.startDocument :: flattenAll forest) →
        ∃ last, DrainsTo (watching source config headers expressions) (documentVisits forest)
          (.ok () last)) ∧
      (∀ visits last, DrainsTo (watching source config headers expressions) visits (.ok () last) →
        ((∀ visit ∈ visits, visit.position.depth ≤ limit) ∧
            DrainsTo (watching source (config.withMaxDepth limit) headers expressions) visits
              (.ok () (last.limited limit))) ∨
          ∃ before node path after told d f,
            visits = before ++ ⟨.startNode node, ⟨path, limit + 1⟩⟩ :: after ∧
            (∀ visit ∈ before, visit.position.depth ≤ limit) ∧
            DrainsTo (watching source (config.withMaxDepth limit) headers expressions) before
              (.error (.tooDeep told limit) f) ∧
            Walks (watching source (config.withMaxDepth limit) headers expressions) before d ∧
            advance d = .error (.tooDeep told limit) f ∧ SamePlace d f) ∧
      ∀ log c, Session (new source (config.withMaxDepth limit) headers) log c →
        c.depth ≤ limit := by
  refine ⟨?_, ?_, fun log c hsession => depth_le_of_session hsession rfl⟩
  · intro forest hsource
    obtain ⟨d, last, hwalks, hend, hlast, _⟩ :=
      walks_document headers expressions hsource hnone
    have hshown : ∀ visit ∈ ⟨.startDocument, ⟨"", 0⟩⟩ :: visitsAll "" 0 forest,
        visit.event ≠ .endDocument :=
      List.forall_mem_cons.mpr ⟨nofun, event_ne_endDocument_visitsAll "" 0 forest⟩
    have hdrains := DrainsTo.of_walks hwalks hshown (.ended hend)
    rw [hlast] at hdrains
    exact ⟨last, hdrains⟩
  · intro visits last hdrains
    have hconfig : (watching source config headers expressions).config.maxDepth = none := by
      rw [watching_eq]
      exact hnone
    have hdepth : (watching source config headers expressions).depth ≤ limit := by
      rw [watching_eq]
      exact Nat.zero_le limit
    rw [← limited_watching]
    rcases hdrains.limited hconfig hdepth with
      hall | ⟨before, node, path, after, told, d, f, hvisits, hbefore, hwalks, hrefused, hplace⟩
    · exact .inl hall
    · refine .inr ⟨before, node, path, after, told, d, f, hvisits, fun visit hvisit =>
        (hbefore visit hvisit).2, ?_, hwalks, hrefused, hplace⟩
      have hstop := DrainsTo.of_walks hwalks (fun visit hvisit => (hbefore visit hvisit).1)
        (.stopped hrefused)
      rwa [List.append_nil] at hstop

end

/-- The walk over the document of `mixedBody` with a limit of one node shows what is in front of the
inner node, and is refused there. With a limit of two it is the walk without one. Whoever goes on
behind the refusal is within the limit. -/
theorem limit_exact_mixed :
    (∃ before node path after told f,
        documentVisits mixedForest = before ++ ⟨.startNode node, ⟨path, 2⟩⟩ :: after ∧
        drain (watching mixedScript (Config.withMaxDepth {} 1) none sharedKey) =
          (before, .error (.tooDeep told 1) f)) ∧
      (∃ last, drain (watching mixedScript (Config.withMaxDepth {} 2) none sharedKey) =
        (documentVisits mixedForest, .ok () last)) ∧
      (Operation.after (List.replicate 8 .advance)
        (new mixedScript (Config.withMaxDepth {} 1))).depth ≤ 1 := by
  have hnone : ({} : Config).maxDepth = none := rfl
  refine ⟨?_, ?_, ?_⟩
  · obtain ⟨hdocument, hcut, _⟩ := limit_exact mixedScript {} none sharedKey hnone 1
    obtain ⟨last, hdrains⟩ := hdocument mixedForest emits_mixedScript
    rcases hcut _ last hdrains with
      ⟨hall, _⟩ | ⟨before, node, path, after, told, _, f, hvisits, _, hstop, _⟩
    · exact absurd hall (by decide)
    · exact ⟨before, node, path, after, told, f, hvisits, drainsTo_iff.mp hstop⟩
  · obtain ⟨hdocument, hcut, _⟩ := limit_exact mixedScript {} none sharedKey hnone 2
    obtain ⟨last, hdrains⟩ := hdocument mixedForest emits_mixedScript
    rcases hcut _ last hdrains with
      ⟨_, hsame⟩ | ⟨before, node, path, after, _, _, _, hvisits, _, _⟩
    · exact ⟨_, drainsTo_iff.mp hsame⟩
    · have hover : ∀ visit ∈ documentVisits mixedForest, visit.position.depth ≤ 2 := by decide
      have hvisit := hover ⟨.startNode node, ⟨path, 3⟩⟩ (by rw [hvisits]; simp)
      exact absurd hvisit (Nat.not_succ_le_self 2)
  · obtain ⟨_, _, hbound⟩ := limit_exact mixedScript {} none [] hnone 1
    exact hbound _ _ (session_answers (List.replicate 8 .advance) _)

end DocWalk.Cursor
