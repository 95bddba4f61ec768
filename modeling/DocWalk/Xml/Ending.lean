import DocWalk.Text.Ascii

/-!
# Where markup ends

Every piece of markup ends with a greater-than sign, but not with every one: inside quotes, a comment
or a CDATA section the sign stands for itself. An ending says, by what came before, which sign it is.
-/

set_option autoImplicit false

namespace DocWalk.Xml

/-- What is remembered of the bytes of a piece of markup, and when a greater-than sign ends it. -/
structure Ending (σ : Type) where
  start : σ
  step : σ → UInt8 → σ
  closes : σ → Bool

namespace Ending

variable {σ : Type}

/-- Parts bytes at the greater-than sign that ends the markup: what stands before it and behind it. -/
def splitFrom (ending : Ending σ) (state : σ) : List UInt8 → Option (List UInt8 × List UInt8)
  | [] => none
  | b :: rest =>
    if b = Ascii.greater ∧ ending.closes state then some ([], rest)
    else (ending.splitFrom (ending.step state b) rest).map fun (inside, after) => (b :: inside, after)

/-- Parts bytes from the start of the markup. -/
def split (ending : Ending σ) (bytes : List UInt8) : Option (List UInt8 × List UInt8) :=
  ending.splitFrom ending.start bytes

/-- A tag ends outside quotes. The quote that is open is remembered. -/
def tag : Ending (Option UInt8) where
  start := none
  step
    | none, b => if b = Ascii.quote ∨ b = Ascii.apostrophe then some b else none
    | some q, b => if b = q then none else some q
  closes := Option.isNone

/-- A processing instruction ends behind a question mark. -/
def instruction : Ending Bool where
  start := false
  step _ b := b = Ascii.question
  closes := id

/-- A comment ends behind two hyphens that are not those of its start. The bytes and the last hyphens
are counted. -/
def comment : Ending (Nat × Nat) where
  start := (0, 0)
  step := fun (length, hyphens) b => (length + 1, if b = Ascii.hyphen then hyphens + 1 else 0)
  closes := fun (length, hyphens) => 5 ≤ length && 2 ≤ hyphens

/-- A CDATA section ends behind two closing brackets. The last ones are counted. -/
def cdata : Ending Nat where
  start := 0
  step brackets b := if b = Ascii.closeBracket then brackets + 1 else 0
  closes brackets := 2 ≤ brackets

/-- A document type ends where its signs are balanced. The open ones are counted. -/
def doctype : Ending Nat where
  start := 0
  step depth b :=
    if b = Ascii.less then depth + 1 else if b = Ascii.greater then depth - 1 else depth
  closes depth := depth = 0

/-- Nothing is lost but the sign. -/
theorem splitFrom_eq {ending : Ending σ} {state : σ} {bytes inside after : List UInt8}
    (h : ending.splitFrom state bytes = some (inside, after)) :
    bytes = inside ++ Ascii.greater :: after := by
  induction bytes generalizing state inside with
  | nil => cases h
  | cons b rest ih =>
    unfold splitFrom at h
    split at h
    next hb =>
      cases h
      rw [hb.1]
      rfl
    next =>
      obtain ⟨⟨inside', after'⟩, hr, he⟩ := Option.map_eq_some_iff.mp h
      cases he
      rw [ih hr]
      rfl

end Ending

end DocWalk.Xml
