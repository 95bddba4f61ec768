import DocWalk.Source

/-!
# Scripted sources

A source that gives what a list says: events, errors, and places where there is nothing to show. An
error that is looked at stays; one that is taken goes, so a caller can go on behind it. Behind the
list the document has ended.
-/

set_option autoImplicit false

namespace DocWalk

/-- One entry of a script. -/
inductive ScriptEntry where
  | event (event : Event)
  | error (error : SourceError)
  /-- Nothing is shown here, and the end is given. -/
  | nothing
  deriving DecidableEq, Repr

/-- A source that follows a list. -/
structure Script where
  entries : List ScriptEntry
  deriving DecidableEq, Repr

namespace Script

/-- Looks at the first entry. -/
def peek : EStateM SourceError Script (Option Event) := fun script =>
  match script.entries with
  | [] => .ok (some .endDocument) script
  | .event event :: _ => .ok (some event) script
  | .error e :: _ => .error e script
  | .nothing :: _ => .ok none script

/-- Takes the first entry. -/
def next : EStateM SourceError Script Event := fun script =>
  match script.entries with
  | [] => .ok .endDocument script
  | .event event :: rest => .ok event ⟨rest⟩
  | .error e :: rest => .error e ⟨rest⟩
  | .nothing :: rest => .ok .endDocument ⟨rest⟩

instance : FiniteSource Script where
  peek := peek
  next := next
  remaining script := script.entries.length
  next_lt := by
    rintro ⟨entries⟩ t event h he
    rcases entries with _ | ⟨_ | _ | _, rest⟩ <;> simp only [next] at h <;> cases h
    · exact absurd rfl he
    · exact Nat.lt_succ_self _
    · exact absurd rfl he
  peek_le := by
    rintro ⟨entries⟩ t shown h
    rcases entries with _ | ⟨_ | _ | _, rest⟩ <;> simp only [peek] at h <;> cases h <;>
      exact Nat.le_refl _
  next_of_peek := by
    rintro ⟨entries⟩ t event h
    rcases entries with _ | ⟨_ | _ | _, rest⟩ <;> simp only [peek] at h <;> cases h <;>
      exact ⟨_, rfl⟩

end Script

end DocWalk
