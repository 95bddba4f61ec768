import DocWalk.Cursor

/-!
# Longer moves of a cursor

Reading the text of a node, skipping a node, going on to a node of some name, and walking to the end.
Each is a loop over events that ends because the source is finite.
-/

set_option autoImplicit false

namespace DocWalk.Cursor

variable {σ : Type}

/-! ## Reading text -/

/-- Fails at an event that is no text, and tells it. -/
def failInText {α : Type} (found : Event) : Walk σ α := fun c =>
  misfit (.unexpectedInText found) (c.tell [.unexpectedInText c.path found.describe])

/-- Takes texts behind `out`, up to the end of the node, which stays, or to where nothing is shown. -/
def collectText [FiniteSource σ] (out : String) (c : Cursor σ) :
    EStateM.Result WalkError (Cursor σ) String :=
  match _hp : ask Source.peek c with
  | .error e c => .error e c
  | .ok none c | .ok (some .endNode) c => .ok out c
  | .ok (some (.text _)) shown =>
    match _hn : ask Source.next shown with
    | .error e c => .error e c
    | .ok (.text chunk) taken =>
      match _hw : lookAhead true taken with
      | .error e c => .error e c
      | .ok () watched => collectText (out ++ chunk) watched
    -- A text that is shown is the next event given, so nothing else comes.
    | .ok _ taken => .ok out taken
  | .ok (some found) c => failInText found c
termination_by FiniteSource.remaining c.source
decreasing_by
  obtain ⟨s, hs, rfl⟩ := ask_eq_ok.mp _hp
  obtain ⟨t, ht, rfl⟩ := ask_eq_ok.mp _hn
  have h₁ := FiniteSource.peek_le hs
  have h₂ := FiniteSource.next_lt ht nofun
  exact Nat.lt_of_le_of_lt (lookAhead_noMore _hw) (Nat.lt_of_lt_of_le h₂ h₁)

/-- Reads the text at the position. On an attribute that is its value, and nothing is taken. On a
node that opens it is the text up to the node's end; attributes that wait are passed over. -/
def readText [FiniteSource σ] : Walk σ String := fun c =>
  match c.current with
  | none => misfit .textBeforeFirst c
  | some (.attr a) => .ok a.value c
  | some (.startNode _) => collectText "" { c with attributes := [] }
  | some event => misfit (.noTextAt event) c

/-- Reads the text at the position as a value. -/
def read [FiniteSource σ] (kind : Kind) : Walk σ Primitive := do
  let text ← readText
  modify (·.tell (kind.notices text))
  match kind.decode text with
  | .ok value => return value
  | .error e => throw (.decode (← get).path e)

/-! ## Loops over events -/

/-- Moves on until no more than `target` nodes are open. -/
def skipTo [FiniteSource σ] (target : Nat) (c : Cursor σ) :
    EStateM.Result WalkError (Cursor σ) Unit :=
  if c.depth ≤ target then .ok () c
  else
    match _h : advance c with
    | .error e c => .error e c
    | .ok event d =>
      if _he : event = .endDocument then misfit .endedInsideNode d
      else skipTo target d
termination_by c.left
decreasing_by exact advance_lt _h _he

/-- Skips the node that has just opened, with all that is in it. -/
def skipNode [FiniteSource σ] : Walk σ Unit := fun c =>
  match c.current with
  | some (.startNode _) => skipTo (c.depth - 1) c
  | _ => misfit .skipElsewhere c

/-- Moves on to the next node of a name, or to the end of the document; tells whether it found one. -/
def seek [FiniteSource σ] (name : String) (c : Cursor σ) :
    EStateM.Result WalkError (Cursor σ) Bool :=
  match _h : advance c with
  | .error e c => .error e c
  | .ok event d =>
    if event.node?.any (·.name = name) then .ok true d
    else if _he : event = .endDocument then .ok false d
    else seek name d
termination_by c.left
decreasing_by exact advance_lt _h _he

/-- An event with the position behind it. -/
structure Visit where
  event : Event
  position : Position
  deriving DecidableEq, Repr

/-- Moves on to the end or an error: what was visited, and how it ended. -/
def drain [FiniteSource σ] (c : Cursor σ) :
    List Visit × EStateM.Result WalkError (Cursor σ) Unit :=
  match _h : advance c with
  | .error e c => ([], .error e c)
  | .ok event d =>
    if _he : event = .endDocument then ([⟨event, d.position⟩], .ok () d)
    else
      let (visits, outcome) := drain d
      (⟨event, d.position⟩ :: visits, outcome)
termination_by c.left
decreasing_by exact advance_lt _h _he

end DocWalk.Cursor
