import DocWalk.Proofs.Cursor.CachedPath
import DocWalk.Proofs.Path.Cache

/-!
# What a walk leaves alone

The settings of a cursor and the headers that came with its document are fixed when it is made. The
patterns it remembers change with an anchored test and with nothing else. `SameSettings` says so of
every other operation, over any source, failing or not.

**The law** (`Session.faithful`): in every session the remembered patterns are those that compiling
gives, so an anchored test answers for the position alone (`testAt_eq`).
-/

set_option autoImplicit false

namespace DocWalk.Cursor

variable {σ : Type}

/-- Another cursor with the same settings, headers and remembered patterns. -/
structure SameSettings (c d : Cursor σ) : Prop where
  config_eq : d.config = c.config
  headers_eq : d.headers = c.headers
  patterns_eq : d.patterns = c.patterns

theorem SameSettings.refl (c : Cursor σ) : SameSettings c c :=
  ⟨rfl, rfl, rfl⟩

theorem SameSettings.trans {c d f : Cursor σ} (h : SameSettings c d) (k : SameSettings d f) :
    SameSettings c f :=
  ⟨k.config_eq.trans h.config_eq, k.headers_eq.trans h.headers_eq,
    k.patterns_eq.trans h.patterns_eq⟩

/-! ## Steps -/

theorem sameSettings_ask {α : Type} (request : EStateM SourceError σ α) :
    EStateM.Leads SameSettings (ask request) := by
  intro c
  unfold ask
  split <;> exact ⟨rfl, rfl, rfl⟩

theorem sameSettings_catchText (continued : Bool) (text : String) (c : Cursor σ) :
    SameSettings c (c.catchText continued text) := by
  unfold catchText
  split <;> exact ⟨rfl, rfl, rfl⟩

theorem sameSettings_enter (event : Event) :
    EStateM.Leads (ε := WalkError) (SameSettings (σ := σ)) (enter event) := by
  intro c
  have htoNode : SameSettings c (toNode c).left := by
    unfold toNode
    split <;> exact ⟨rfl, rfl, rfl⟩
  cases event with
  | startNode node =>
    show SameSettings c (openNode node c).left
    unfold openNode
    dsimp only
    split
    next => exact ⟨rfl, rfl, rfl⟩
    next => split <;> exact ⟨rfl, rfl, rfl⟩
  | endNode =>
    show SameSettings c (closeNode c).left
    unfold closeNode
    split <;> exact ⟨rfl, rfl, rfl⟩
  | attr => exact ⟨rfl, rfl, rfl⟩
  | startDocument | endDocument | text => exact htoNode

theorem sameSettings_decodeText (kind : Kind) (r : Outcome σ String) :
    SameSettings r.left (decodeText kind r).left := by
  unfold decodeText
  split
  next => split <;> exact ⟨rfl, rfl, rfl⟩
  next => exact .refl _

/-- Where the remembered patterns are those that compiling gives, an anchored test answers for the
position alone. -/
theorem testAt_eq {c : Cursor σ} (h : c.patterns.Faithful) (pattern : String) (anchor : Nat) :
    c.testAt pattern anchor =
      ((Pattern.compile pattern).holds c.position anchor,
        { c with patterns := c.patterns.use (.compile pattern) }) := by
  rw [testAt, h.holds_eq]

section

variable [Source σ]

theorem sameSettings_lookAhead (continued : Bool) :
    EStateM.Leads (ε := WalkError) (SameSettings (σ := σ)) (lookAhead continued) := by
  intro c
  unfold lookAhead
  split
  next => exact .refl c
  next =>
    split
    next hp => exact ((sameSettings_ask _).of_ok hp).trans (sameSettings_catchText continued _ _)
    next hp => exact (sameSettings_ask _).of_ok hp
    next hp => exact (sameSettings_ask _).of_error hp

theorem sameSettings_take : EStateM.Leads (SameSettings (σ := σ)) take := by
  intro c
  unfold take
  split
  next => exact ⟨rfl, rfl, rfl⟩
  next => exact sameSettings_ask Source.next c

theorem sameSettings_watch (event : Event) :
    EStateM.Leads (ε := WalkError) (SameSettings (σ := σ)) (watch event) := by
  unfold watch
  split
  next => exact .pure .refl ()
  next => exact sameSettings_lookAhead _

theorem sameSettings_advance : EStateM.Leads (SameSettings (σ := σ)) advance :=
  .bind (fun h k => h.trans k) sameSettings_take fun event =>
    .bind (fun h k => h.trans k) (sameSettings_enter event) fun _ =>
      .bind (fun h k => h.trans k) (sameSettings_watch event) fun _ _ => ⟨rfl, rfl, rfl⟩

theorem sameSettings_atStart : EStateM.Leads (SameSettings (σ := σ)) atStart :=
  .bind (fun h k => h.trans k) (sameSettings_ask _) fun _ => .pure SameSettings.refl _

/-! ## Operations -/

theorem CollectsText.sameSettings {out : String} {c : Cursor σ} {r : Outcome σ String}
    (h : CollectsText out c r) : SameSettings c r.left := by
  induction h with
  | unseen hp => exact (sameSettings_ask _).of_error hp
  | ends hp => exact (sameSettings_ask _).of_ok hp
  | found hp => exact ((sameSettings_ask _).of_ok hp).trans ⟨rfl, rfl, rfl⟩
  | untaken hp hn =>
    exact ((sameSettings_ask _).of_ok hp).trans ((sameSettings_ask _).of_error hn)
  | unwatched hp hn hw =>
    have htaken := ((sameSettings_ask _).of_ok hp).trans ((sameSettings_ask _).of_ok hn)
    exact htaken.trans ((sameSettings_lookAhead true).of_error hw)
  | piece hp hn hw _ ih =>
    have htaken := ((sameSettings_ask _).of_ok hp).trans ((sameSettings_ask _).of_ok hn)
    exact (htaken.trans ((sameSettings_lookAhead true).of_ok hw)).trans ih
  | other hp hn _ _ ih =>
    exact (((sameSettings_ask _).of_ok hp).trans ((sameSettings_ask _).of_ok hn)).trans ih

theorem ReadsText.sameSettings {c : Cursor σ} {r : Outcome σ String} (h : ReadsText c r) :
    SameSettings c r.left := by
  unfold ReadsText at h
  split at h
  next =>
    subst h
    exact .refl c
  next =>
    subst h
    exact .refl c
  next =>
    have hpassed : SameSettings c { c with attributes := [] } := ⟨rfl, rfl, rfl⟩
    exact hpassed.trans h.sameSettings
  next =>
    subst h
    exact .refl c

theorem SkipsTo.sameSettings {target : Nat} {c : Cursor σ} {r : Outcome σ Unit}
    (h : SkipsTo target c r) : SameSettings c r.left := by
  induction h with
  | reached => exact .refl _
  | stopped _ hadvance => exact sameSettings_advance.of_error hadvance
  | ended _ hadvance => exact sameSettings_advance.of_ok hadvance
  | onward _ hadvance _ _ ih => exact (sameSettings_advance.of_ok hadvance).trans ih

theorem SkipsNode.sameSettings {c : Cursor σ} {r : Outcome σ Unit} (h : SkipsNode c r) :
    SameSettings c r.left := by
  unfold SkipsNode at h
  split at h
  next => exact SkipsTo.sameSettings h
  next =>
    subst h
    exact .refl c

/-- Every operation but an anchored test keeps settings, headers and remembered patterns. -/
theorem Operation.Performs.sameSettings {operation : Operation} {c : Cursor σ}
    {r : Outcome σ Answer} (h : operation.Performs c r)
    (hne : ∀ pattern anchor, operation ≠ .testAt pattern anchor) : SameSettings c r.left := by
  cases operation with
  | advance =>
    subst h
    rw [EStateM.Result.left_mapAnswer]
    exact sameSettings_advance c
  | readText =>
    obtain ⟨read, hread, rfl⟩ := h
    rw [EStateM.Result.left_mapAnswer]
    exact hread.sameSettings
  | read kind =>
    obtain ⟨read, hread, rfl⟩ := h
    rw [EStateM.Result.left_mapAnswer]
    exact hread.sameSettings.trans (sameSettings_decodeText kind read)
  | skip =>
    obtain ⟨skipped, hskipped, rfl⟩ := h
    rw [EStateM.Result.left_mapAnswer]
    exact hskipped.sameSettings
  | atStart =>
    subst h
    rw [EStateM.Result.left_mapAnswer]
    exact sameSettings_atStart c
  | testAt pattern anchor => exact absurd rfl (hne pattern anchor)
  | register | look =>
    subst h
    exact ⟨rfl, rfl, rfl⟩

/-! ## Settings -/

theorem Operation.Performs.config_eq {operation : Operation} {c : Cursor σ} {r : Outcome σ Answer}
    (h : operation.Performs c r) : r.left.config = c.config := by
  by_cases htest : ∃ pattern anchor, operation = .testAt pattern anchor
  · obtain ⟨pattern, anchor, rfl⟩ := htest
    subst h
    rfl
  · exact (h.sameSettings fun pattern anchor heq => htest ⟨pattern, anchor, heq⟩).config_eq

/-- The settings of a cursor are those that it was made with, in every session. -/
theorem Session.config_eq {c d : Cursor σ} {log : List (Operation × Except WalkError Answer)}
    (h : Session c log d) : d.config = c.config := by
  induction h with
  | rest => rfl
  | step hperforms _ ih => exact ih.trans hperforms.config_eq

/-! ## Remembered patterns -/

theorem Operation.Performs.faithful {operation : Operation} {c : Cursor σ} {r : Outcome σ Answer}
    (h : operation.Performs c r) (hc : c.patterns.Faithful) : r.left.patterns.Faithful := by
  by_cases htest : ∃ pattern anchor, operation = .testAt pattern anchor
  · obtain ⟨pattern, anchor, rfl⟩ := htest
    subst h
    rw [testAt_eq hc]
    exact hc.use pattern
  · have hsame := h.sameSettings fun pattern anchor heq => htest ⟨pattern, anchor, heq⟩
    rwa [hsame.patterns_eq]

/-- **What is remembered was compiled**, in every session. -/
theorem Session.faithful {c d : Cursor σ} {log : List (Operation × Except WalkError Answer)}
    (h : Session c log d) (hc : c.patterns.Faithful) : d.patterns.Faithful := by
  induction h with
  | rest => exact hc
  | step hperforms _ ih => exact ih (hperforms.faithful hc)

end

end DocWalk.Cursor
