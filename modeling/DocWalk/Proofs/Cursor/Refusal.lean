import DocWalk.Proofs.Cursor.AnchoredTest
import DocWalk.Proofs.Cursor.Watching

/-!
# A node that is too deep

A limit on the depth refuses the node that would go over it: the node is taken from the source and
not entered, so names, path and current event stay, and the ends of nodes that come later no longer
fit the names. The depth stays within the limit all the same. Only a node that opens adds to it, and
that is where the limit is asked (`depth_le_of_session`).

A refusal tells a path. It is written from the path that the cursor keeps, not from the names.
Behind an attribute the kept path is still that of the attribute: any other event that is entered
there leads back to the node first, and a refused node is not entered. **The law**
(`path_of_refusal`): as long as nothing has failed, a refusal tells the path that the node would
have had just where the event before it is no attribute.
-/

set_option autoImplicit false

namespace DocWalk.Cursor

open EStateM

variable {σ : Type}

/-! ## Where a node is refused -/

/-- To enter an event fails for its depth at a node that reaches the limit, and nothing changes but
what is told. -/
theorem enter_eq_tooDeep_iff {event : Event} {c d : Cursor σ} {path : String} {limit : Nat} :
    enter event c = .error (.tooDeep path limit) d ↔
      ∃ node, event = .startNode node ∧ c.config.maxDepth = some limit ∧ limit ≤ c.depth ∧
        path = c.path ++ "/" ++ node.name ∧ d = c.tell [.tooDeep limit c.path] := by
  constructor
  · intro h
    cases event with
    | startNode node =>
      change openNode node c = _ at h
      unfold openNode at h
      split at h
      next => cases h
      next hlimit =>
        split at h <;> cases h
        next hdeep => exact ⟨node, rfl, hlimit, hdeep, rfl, rfl⟩
    | endNode =>
      change closeNode c = _ at h
      unfold closeNode at h
      split at h <;> cases h
    | attr => cases h
    | startDocument | endDocument | text =>
      change toNode c = _ at h
      unfold toNode at h
      split at h <;> cases h
  · rintro ⟨node, rfl, hlimit, hdeep, rfl, rfl⟩
    show openNode node c = _
    unfold openNode
    rw [hlimit]
    exact if_pos hdeep

section

variable [Source σ] {c d : Cursor σ} {node : Node} {path : String} {limit : Nat}

/-- A node comes from the source, when no attribute waits. -/
theorem take_eq_startNode_iff :
    take c = .ok (.startNode node) d ↔ c.attributes = [] ∧
      ∃ s, (Source.next : EStateM SourceError σ _) c.source = .ok (.startNode node) s ∧
        d = { c with source := s } := by
  unfold take
  split
  next hcons => simp [hcons]
  next hnil => simp [hnil, ask_eq_ok]

/-- The next event of the source opens a node, where as many nodes are open as the limit allows. -/
structure Refuses (c : Cursor σ) (node : Node) (limit : Nat) (s : σ) : Prop where
  attributes_eq : c.attributes = []
  next_eq : (Source.next : EStateM SourceError σ _) c.source = .ok (.startNode node) s
  maxDepth_eq : c.config.maxDepth = some limit
  limit_le : limit ≤ c.depth

/-- **What a refusal is**: the node is gone from the source, and all else is as it was but for what
is told. -/
theorem advance_eq_tooDeep_iff :
    advance c = .error (.tooDeep path limit) d ↔
      ∃ node s, c.Refuses node limit s ∧ path = c.path ++ "/" ++ node.name ∧
        d = { c with source := s }.tell [.tooDeep limit c.path] := by
  constructor
  · intro h
    rcases advance_eq_error_iff.mp h with htake | ⟨event, f, htake, henter | ⟨_, _, hwatch⟩⟩
    · obtain ⟨_, hsource⟩ := source_of_take_error htake
      cases hsource
    · obtain ⟨node, rfl, hlimit, hdeep, rfl, rfl⟩ := enter_eq_tooDeep_iff.mp henter
      obtain ⟨hattributes, s, hnext, rfl⟩ := take_eq_startNode_iff.mp htake
      exact ⟨node, s, ⟨hattributes, hnext, hlimit, hdeep⟩, rfl, rfl⟩
    · obtain ⟨_, hsource⟩ := source_of_watch_error hwatch
      cases hsource
  · rintro ⟨node, s, hrefuses, rfl, rfl⟩
    have htake : take c = .ok (.startNode node) { c with source := s } :=
      take_eq_startNode_iff.mpr ⟨hrefuses.attributes_eq, s, hrefuses.next_eq, rfl⟩
    have henter := enter_eq_tooDeep_iff (c := { c with source := s }).mpr
      ⟨node, rfl, hrefuses.maxDepth_eq, hrefuses.limit_le, rfl, rfl⟩
    exact advance_eq_error_iff.mpr (.inr ⟨_, _, htake, .inl henter⟩)

end

/-! ## The depth stays within the limit -/

/-- There is a limit, and the depth is within it. -/
structure Within (limit : Nat) (c : Cursor σ) : Prop where
  maxDepth_eq : c.config.maxDepth = some limit
  depth_le : c.depth ≤ limit

/-- From a cursor within the limit to one within it. -/
def StaysWithin (limit : Nat) (c d : Cursor σ) : Prop :=
  Within limit c → Within limit d

theorem StaysWithin.trans {limit : Nat} {c d f : Cursor σ} (h : StaysWithin limit c d)
    (k : StaysWithin limit d f) : StaysWithin limit c f :=
  fun hc => k (h hc)

section

variable {limit : Nat}

theorem Within.keep {c d : Cursor σ} (h : Within limit c) (hplace : SamePlace c d)
    (hsettings : SameSettings c d) : Within limit d := by
  refine ⟨?_, ?_⟩
  · rw [hsettings.config_eq, h.maxDepth_eq]
  · rw [depth, hplace.names_eq]
    exact h.depth_le

/-- An event that is entered adds to the depth only where it opens a node, and within the limit. -/
theorem Within.enter {event : Event} {c d : Cursor σ} (h : Within limit c)
    (henter : Cursor.enter event c = .ok () d) : Within limit d := by
  refine ⟨?_, ?_⟩
  · rw [((sameSettings_enter event).of_ok henter).config_eq, h.maxDepth_eq]
  · rw [depth, (enter_names henter).1]
    cases event with
    | startNode node =>
      change openNode node c = _ at henter
      unfold openNode at henter
      simp only [h.maxDepth_eq] at henter
      split at henter
      next => cases henter
      next hfits => exact Nat.lt_of_not_le hfits
    | endNode =>
      have hle : c.names.tail.length ≤ c.names.length := List.length_tail ▸ Nat.sub_le _ _
      exact Nat.le_trans hle h.depth_le
    | startDocument | endDocument | text | attr => exact h.depth_le

theorem staysWithin_enter (event : Event) :
    Leads (ε := WalkError) (StaysWithin (σ := σ) limit) (Cursor.enter event) := by
  intro c h
  cases henter : Cursor.enter event c with
  | ok _ d => exact h.enter henter
  | error e d => exact h.keep (enter_error henter) ((sameSettings_enter event).of_error henter)

/-- What keeps place and settings keeps within the limit. -/
theorem staysWithin_of_leads {α : Type} {m : Walk σ α} (hplace : Leads SamePlace m)
    (hsettings : Leads SameSettings m) : Leads (StaysWithin limit) m :=
  fun c h => h.keep (hplace c) (hsettings c)

variable [Source σ]

theorem staysWithin_advance : Leads (StaysWithin (σ := σ) limit) advance := by
  refine .bind .trans (staysWithin_of_leads samePlace_take sameSettings_take) fun event => ?_
  refine .bind .trans (staysWithin_enter event) fun _ => ?_
  have hwatch : Leads (StaysWithin (σ := σ) limit) (watch event) :=
    staysWithin_of_leads (samePlace_watch event) (sameSettings_watch event)
  refine .bind .trans hwatch fun _ => ?_
  exact fun c h => ⟨h.maxDepth_eq, h.depth_le⟩

theorem SkipsTo.within {target : Nat} {c : Cursor σ} {r : Outcome σ Unit} (h : SkipsTo target c r)
    (hc : Within limit c) : Within limit r.left := by
  induction h with
  | reached => exact hc
  | stopped _ hadvance => exact staysWithin_advance.of_error hadvance hc
  | ended _ hadvance => exact staysWithin_advance.of_ok hadvance hc
  | onward _ hadvance _ _ ih => exact ih (staysWithin_advance.of_ok hadvance hc)

theorem SkipsNode.within {c : Cursor σ} {r : Outcome σ Unit} (h : SkipsNode c r)
    (hc : Within limit c) : Within limit r.left := by
  unfold SkipsNode at h
  split at h
  next => exact SkipsTo.within h hc
  next =>
    subst h
    exact hc

theorem Operation.Performs.within {operation : Operation} {c : Cursor σ} {r : Outcome σ Answer}
    (h : operation.Performs c r) (hc : Within limit c) : Within limit r.left := by
  cases operation with
  | advance =>
    subst h
    rw [Result.left_mapAnswer]
    exact staysWithin_advance c hc
  | skip =>
    obtain ⟨skipped, hskipped, rfl⟩ := h
    rw [Result.left_mapAnswer]
    exact hskipped.within hc
  | testAt =>
    subst h
    exact ⟨hc.maxDepth_eq, hc.depth_le⟩
  | readText | read | atStart | register | look =>
    exact hc.keep (h.samePlace ⟨nofun, nofun⟩) (h.sameSettings nofun)

/-- A session that starts within the limit stays within it. -/
theorem Session.within {c d : Cursor σ} {log : List (Operation × Except WalkError Answer)}
    (h : Session c log d) (hc : Within limit c) : Within limit d := by
  induction h with
  | rest => exact hc
  | step hperforms _ ih => exact ih (hperforms.within hc)

/-- **The depth stays within the limit**, over any source and behind any operations, whether they
failed or not. -/
theorem depth_le_of_session {source : σ} {config : Config}
    {headers : Option (List (String × String))} {log : List (Operation × Except WalkError Answer)}
    {c : Cursor σ} (h : Session (new source config headers) log c)
    (hlimit : config.maxDepth = some limit) : c.depth ≤ limit :=
  (h.within ⟨hlimit, Nat.zero_le _⟩).depth_le

end

/-! ## The path of a refusal -/

variable [Source σ]

/-- **The path of a refusal.** A node that is refused is the next event of the source, and so many
nodes are open as the limit allows. As long as nothing has failed, the path told is the one the node
would have had just where the current event is no attribute; on an attribute it goes on from the
path of the attribute. -/
theorem path_of_refusal {source : σ} {config : Config}
    {headers : Option (List (String × String))} {log : List (Operation × Except WalkError Answer)}
    {c d : Cursor σ} {path : String} {limit : Nat}
    (h : Session (new source config headers) log c)
    (hok : ∀ entry ∈ log, ∃ answer, entry.2 = .ok answer)
    (hrefused : advance c = .error (.tooDeep path limit) d) :
    ∃ node s, c.attributes = [] ∧
      (Source.next : EStateM SourceError σ _) c.source = .ok (.startNode node) s ∧
      config.maxDepth = some limit ∧ c.depth = limit ∧
      (path = Path.slashed (node.name :: c.names) ↔ c.onAttribute = false) ∧
      ∀ a, c.current = some (.attr a) →
        path = Path.slashed c.names ++ "/@" ++ a.name ++ "/" ++ node.name := by
  obtain ⟨node, s, hrefuses, rfl, _⟩ := advance_eq_tooDeep_iff.mp hrefused
  have hlimit : config.maxDepth = some limit := by
    rw [← hrefuses.maxDepth_eq, h.config_eq]
    rfl
  have hdepth : c.depth = limit :=
    Nat.le_antisymm (depth_le_of_session h hlimit) hrefuses.limit_le
  obtain ⟨hfresh, hsettled⟩ := h.keeps (.inl rfl)
  have hopened : Path.slashed (node.name :: c.names) =
      Path.slashed c.names ++ "/" ++ node.name := by
    rw [← Path.join_eq_slashed, ← Path.join_eq_slashed]
    rfl
  have hattribute : ∀ a, c.current = some (.attr a) →
      c.path = Path.slashed c.names ++ "/@" ++ a.name := by
    intro a ha
    obtain ⟨b, hb, hpath⟩ := hsettled nofun hok (onAttribute_iff.mpr ⟨a, ha⟩)
    cases ha.symm.trans hb
    exact hpath
  refine ⟨node, s, hrefuses.attributes_eq, hrefuses.next_eq, hlimit, hdepth, ?_, ?_⟩
  · rw [hopened]
    constructor
    · intro hpath
      by_contra hon
      rw [Bool.not_eq_false] at hon
      obtain ⟨a, ha⟩ := onAttribute_iff.mp hon
      -- The path of the attribute is longer than that of the nodes.
      have hlength := congrArg String.length hpath
      have hslash : "/@".length = 2 := rfl
      simp only [hattribute a ha, String.length_append] at hlength
      omega
    · intro hoff
      rw [hfresh.atNode hoff]
  · intro a ha
    rw [hattribute a ha]

/-- A node with an attribute around a node. -/
def labelledScript : Script :=
  ⟨[.event (.startNode { name := "a", attributes := [⟨"id", "1"⟩] }),
    .event (.startNode { name := "b" }), .event .endNode, .event .endNode]⟩

/-- A caller over it who has advanced to the attribute. -/
def labelled (config : Config) : Cursor Script :=
  Operation.after [.advance, .advance] (new labelledScript config)

theorem session_labelled :
    Session (new labelledScript { maxDepth := some 1 })
      [(.advance, .ok (.event (.startNode { name := "a", attributes := [⟨"id", "1"⟩] }))),
        (.advance, .ok (.event (.attr ⟨"id", "1"⟩)))] (labelled { maxDepth := some 1 }) := by
  have hanswers : Operation.answers [.advance, .advance]
      (new labelledScript { maxDepth := some 1 }) =
        [.ok (.event (.startNode { name := "a", attributes := [⟨"id", "1"⟩] })),
          .ok (.event (.attr ⟨"id", "1"⟩))] := by decide +kernel
  have hsession := session_answers [.advance, .advance]
    (new labelledScript { maxDepth := some 1 })
  rwa [hanswers] at hsession

theorem advance_labelled :
    ∃ d, advance (labelled { maxDepth := some 1 }) = .error (.tooDeep "/a/@id/b" 1) d := by
  have hrefuses : (labelled { maxDepth := some 1 }).Refuses { name := "b" } 1
      ⟨[.event .endNode, .event .endNode]⟩ :=
    ⟨by decide +kernel, by decide +kernel, rfl, by decide⟩
  exact ⟨_, advance_eq_tooDeep_iff.mpr ⟨_, _, hrefuses, by decide +kernel, rfl⟩⟩

/-- Nothing has failed, and the path that the refusal tells is not that of the open nodes and the
refused one. -/
theorem tooDeep_labelled :
    ∃ log d, Session (new labelledScript { maxDepth := some 1 }) log
        (labelled { maxDepth := some 1 }) ∧
      (∀ entry ∈ log, ∃ answer, entry.2 = .ok answer) ∧
      advance (labelled { maxDepth := some 1 }) = .error (.tooDeep "/a/@id/b" 1) d ∧
      Path.slashed ("b" :: (labelled { maxDepth := some 1 }).names) = "/a/b" := by
  obtain ⟨d, hrefused⟩ := advance_labelled
  exact ⟨_, d, session_labelled, by simp, hrefused, by decide +kernel⟩

/-- There the path goes on from the attribute. A caller who may open no node is told the path of the
first. -/
theorem path_of_refusal_labelled :
    (∃ (c d : Cursor Script) (node : Node), c = labelled { maxDepth := some 1 } ∧
        advance c = .error (.tooDeep "/a/@id/b" 1) d ∧ c.depth = 1 ∧
        "/a/@id/b" = Path.slashed c.names ++ "/@" ++ "id" ++ "/" ++ node.name) ∧
      ∃ (d : Cursor Script) (node : Node),
        advance (new labelledScript { maxDepth := some 0 }) = .error (.tooDeep "/a" 0) d ∧
        "/a" = Path.slashed [node.name] := by
  constructor
  · obtain ⟨d, hrefused⟩ := advance_labelled
    obtain ⟨node, _, _, _, _, hdepth, _, hpath⟩ :=
      path_of_refusal session_labelled (by simp) hrefused
    exact ⟨_, d, node, rfl, hrefused, hdepth, hpath ⟨"id", "1"⟩ (by decide +kernel)⟩
  · have hrefuses : (new labelledScript { maxDepth := some 0 }).Refuses
        { name := "a", attributes := [⟨"id", "1"⟩] } 0
        ⟨[.event (.startNode { name := "b" }), .event .endNode, .event .endNode]⟩ :=
      ⟨rfl, rfl, rfl, Nat.le_refl 0⟩
    have hrefused := advance_eq_tooDeep_iff.mpr ⟨_, _, hrefuses, rfl, rfl⟩
    obtain ⟨node, _, _, _, _, _, hpath, _⟩ :=
      path_of_refusal (.rest _) (List.forall_mem_nil _) hrefused
    exact ⟨_, node, hrefused, hpath.mpr rfl⟩

end DocWalk.Cursor
