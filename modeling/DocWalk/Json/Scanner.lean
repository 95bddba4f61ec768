import DocWalk.Json.Error
import DocWalk.Outcome
import DocWalk.Text.Ascii
import DocWalk.Text.Utf8

/-!
# Scanning JSON tokens

A scanner holds the bytes that are left and counts those that are gone. A token is read or refused;
either way the scanner stands somewhere behind where it stood, and the next reading goes on there.

A string is read in raw chunks, each up to the next quote or backslash. A fault of a chunk is told at
its start, because the scanner passes a chunk as a whole.

`Scanner.Reaches` is the one way in which scanning changes a scanner: it drops bytes from the front.
-/

set_option autoImplicit false

namespace DocWalk.Json

/-- The bytes left of a text and the number of bytes before them. -/
structure Scanner where
  rest : List UInt8
  pos : Nat
  deriving DecidableEq, Repr, Inhabited

namespace Scanner

/-- A scanner at the start of a text. -/
def ofText (text : String) : Scanner :=
  ⟨Utf8.encode text, 0⟩

/-- Drops so many bytes, or all that are left. -/
def drop (s : Scanner) (n : Nat) : Scanner :=
  ⟨s.rest.drop n, s.pos + (s.rest.take n).length⟩

/-- A scanner stands at or behind another on the same text. -/
def Reaches (s s' : Scanner) : Prop :=
  ∃ n, s' = s.drop n

theorem drop_zero (s : Scanner) : s.drop 0 = s := by simp [drop]

theorem drop_drop (s : Scanner) (m n : Nat) : (s.drop m).drop n = s.drop (m + n) := by
  simp only [drop, List.drop_drop, List.length_take, List.length_drop, Scanner.mk.injEq, true_and]
  omega

theorem Reaches.refl (s : Scanner) : s.Reaches s :=
  ⟨0, s.drop_zero.symm⟩

theorem Reaches.trans {a b c : Scanner} (h : a.Reaches b) (k : b.Reaches c) : a.Reaches c := by
  obtain ⟨m, rfl⟩ := h
  obtain ⟨n, rfl⟩ := k
  exact ⟨m + n, a.drop_drop m n⟩

theorem Reaches.length_le {a b : Scanner} (h : a.Reaches b) : b.rest.length ≤ a.rest.length := by
  obtain ⟨n, rfl⟩ := h
  simp [drop]

/-- What is gone and what is left make up the text. -/
theorem Reaches.pos_add_length {s t : Scanner} (h : s.Reaches t) :
    t.pos + t.rest.length = s.pos + s.rest.length := by
  obtain ⟨n, rfl⟩ := h
  simp only [drop, List.length_take, List.length_drop]
  omega

theorem reaches_drop (s : Scanner) (n : Nat) : s.Reaches (s.drop n) :=
  ⟨n, rfl⟩

theorem length_drop_one_lt {s : Scanner} {b : UInt8} {more : List UInt8} (h : s.rest = b :: more) :
    (s.drop 1).rest.length < s.rest.length := by
  simp [drop, h]

end Scanner

/-- An operation on a scanner. -/
abbrev Scan := EStateM Fault Scanner

/-- An operation that only drops bytes. -/
abbrev Forward {α : Type} (m : Scan α) : Prop :=
  EStateM.Leads Scanner.Reaches m

namespace Scan

variable {α β : Type}

/-- Stops with a reason, at the position of the scanner. -/
def fail (reason : Reason) : Scan α := fun s =>
  .error ⟨reason, s.pos⟩ s

/-- The next byte, which stays. -/
def peek : Scan (Option UInt8) := fun s =>
  .ok s.rest.head? s

/-- Drops so many bytes. -/
def skip (n : Nat) : Scan Unit := fun s =>
  .ok () (s.drop n)

/-- Drops bytes as long as they have a property. -/
def skipWhile (p : UInt8 → Bool) : Scan Unit := fun s =>
  .ok () (s.drop (s.rest.takeWhile p).length)

/-- Drops the next byte if it has a property, and tells whether it did. -/
def accept (p : UInt8 → Bool) : Scan Bool := fun s =>
  if s.rest.head?.any p then .ok true (s.drop 1) else .ok false s

/-- Drops the given bytes if they come next, and tells whether they did. -/
def acceptBytes (bytes : List UInt8) : Scan Bool := fun s =>
  if bytes.isPrefixOf s.rest then .ok true (s.drop bytes.length) else .ok false s

/-- The next byte that is not blank, which stays; the blanks go. -/
def significant : Scan (Option UInt8) := do
  skipWhile Ascii.isBlank
  peek

/-- Drops a byte, which must come next behind blanks. -/
def expect (b : UInt8) (reason : Reason) : Scan Unit := do
  if (← significant) = some b then skip 1 else fail reason

/-- Drops a word of ASCII letters, which must come next. -/
def literal (word : String) : Scan String := do
  if ← acceptBytes (Ascii.bytes word) then return word else fail .invalidLiteral

/-! ## Numbers -/

/-- Drops digits, of which there must be one. -/
def someDigits : Scan Unit := do
  if ← accept Ascii.isDigit then skipWhile Ascii.isDigit else fail .invalidNumber

/-- The digits before the point: a zero, or digits of which the first is none. -/
def wholePart : Scan Unit := do
  if ← accept (· = Ascii.zero) then return () else someDigits

/-- A point and digits, or nothing. -/
def fractionPart : Scan Unit := do
  if ← accept (· = Ascii.point) then someDigits

/-- The letter e in either case, an optional sign and digits, or nothing. -/
def exponentPart : Scan Unit := do
  if ← accept fun b => b = Ascii.byte 'e' || b = Ascii.byte 'E' then
    let _ ← accept fun b => b = Ascii.plus || b = Ascii.hyphen
    someDigits

/-- The text of a chunk of bytes; well-formed bytes always have one. -/
def chunkText (bytes : List UInt8) : String :=
  ((Utf8.decode bytes).toOption).getD ""

/-- A number, as it is written. -/
def number : Scan String := do
  let start ← get
  let _ ← accept (· = Ascii.hyphen)
  wholePart
  fractionPart
  exponentPart
  let stop ← get
  return chunkText (start.rest.take (stop.pos - start.pos))

/-! ## Strings -/

/-- The value of a hexadecimal digit, letters in either case. -/
def hexValue? (b : UInt8) : Option Nat :=
  if 0x30 ≤ b && b ≤ 0x39 then some (b.toNat - 0x30)
  else if 0x61 ≤ b && b ≤ 0x66 then some (b.toNat - 0x61 + 10)
  else if 0x41 ≤ b && b ≤ 0x46 then some (b.toNat - 0x41 + 10)
  else none

/-- Four hexadecimal digits; a bad digit stays, with those before it. -/
def hex4 : Scan Nat := fun s =>
  match s.rest with
  | a :: b :: c :: d :: _ =>
    match hexValue? a, hexValue? b, hexValue? c, hexValue? d with
    | some a, some b, some c, some d => .ok (((a * 16 + b) * 16 + c) * 16 + d) (s.drop 4)
    | _, _, _, _ => fail .invalidUnicodeEscape s
  | _ => fail .truncatedUnicodeEscape s

/-- The character with a number. -/
def charOf (n : Nat) : Scan Char :=
  if n.isValidChar then return .ofNat n else fail .invalidUnicodeEscape

/-- A unit that opens a surrogate pair. -/
def isHighSurrogate (n : Nat) : Bool :=
  0xD800 ≤ n && n < 0xDC00

/-- A unit that closes a surrogate pair. -/
def isLowSurrogate (n : Nat) : Bool :=
  0xDC00 ≤ n && n < 0xE000

/-- The character of a surrogate pair, as a number. -/
def surrogatePair (high low : Nat) : Nat :=
  0x10000 + (high - 0xD800) * 0x400 + (low - 0xDC00)

/-- The second half of a surrogate pair, with the escape that it needs. -/
def lowSurrogate (high : Nat) : Scan Char := do
  if ← acceptBytes [Ascii.backslash, Ascii.byte 'u'] then
    let low ← hex4
    if isLowSurrogate low then charOf (surrogatePair high low) else fail .unpairedSurrogate
  else fail .unpairedSurrogate

/-- The character of an escape by number, behind the letter u. -/
def unicodeEscape : Scan Char := do
  let n ← hex4
  if isHighSurrogate n then lowSurrogate n else charOf n

/-- The character of a short escape. -/
def shortEscape? (b : UInt8) : Option Char :=
  if b = Ascii.quote then some '\x22'
  else if b = Ascii.backslash then some '\\'
  else if b = Ascii.slash then some '/'
  else if b = Ascii.byte 'b' then some '\x08'
  else if b = Ascii.byte 'f' then some '\x0C'
  else if b = Ascii.byte 'n' then some '\n'
  else if b = Ascii.byte 'r' then some '\r'
  else if b = Ascii.byte 't' then some '\t'
  else none

/-- Stops with a bad escape, at the byte just dropped. -/
def failEscape : Scan α := fun s =>
  .error ⟨.invalidEscape, s.pos - 1⟩ s

/-- The character of an escape, behind its backslash. -/
def escape : Scan Char := do
  match ← peek with
  | none => fail .unterminatedEscape
  | some b =>
    skip 1
    if b = Ascii.byte 'u' then unicodeEscape
    else match shortEscape? b with
      | some c => return c
      | none => failEscape

/-- A byte that stands for itself in a string, save that control characters are refused. -/
def isRaw (b : UInt8) : Bool :=
  b ≠ Ascii.quote && b ≠ Ascii.backslash

/-! ## Scanning goes forward -/

theorem forward_pure (a : α) : Forward (pure a) :=
  .pure Scanner.Reaches.refl a

theorem forward_bind {m : Scan α} {f : α → Scan β} (hm : Forward m) (hf : ∀ a, Forward (f a)) :
    Forward (m >>= f) :=
  EStateM.Leads.bind (@Scanner.Reaches.trans) hm hf

theorem forward_ite {c : Prop} [Decidable c] {m n : Scan α} (hm : Forward m) (hn : Forward n) :
    Forward (if c then m else n) := by
  split
  · exact hm
  · exact hn

theorem forward_get : Forward (get : Scan Scanner) :=
  Scanner.Reaches.refl

theorem forward_fail (reason : Reason) : Forward (fail reason : Scan α) :=
  Scanner.Reaches.refl

theorem forward_failEscape : Forward (failEscape : Scan α) :=
  Scanner.Reaches.refl

theorem forward_peek : Forward peek :=
  Scanner.Reaches.refl

theorem forward_skip (n : Nat) : Forward (skip n) :=
  fun s => s.reaches_drop n

theorem forward_skipWhile (p : UInt8 → Bool) : Forward (skipWhile p) :=
  fun s => s.reaches_drop _

theorem forward_accept (p : UInt8 → Bool) : Forward (accept p) := by
  intro s
  unfold accept
  split
  · exact s.reaches_drop 1
  · exact .refl s

theorem forward_acceptBytes (bytes : List UInt8) : Forward (acceptBytes bytes) := by
  intro s
  unfold acceptBytes
  split
  · exact s.reaches_drop _
  · exact .refl s

theorem forward_significant : Forward significant :=
  forward_bind (forward_skipWhile _) fun _ => forward_peek

theorem forward_expect (b : UInt8) (reason : Reason) : Forward (expect b reason) :=
  forward_bind forward_significant fun _ => forward_ite (forward_skip 1) (forward_fail reason)

theorem forward_literal (word : String) : Forward (literal word) :=
  forward_bind (forward_acceptBytes _) fun _ => forward_ite (forward_pure word) (forward_fail _)

theorem forward_someDigits : Forward someDigits :=
  forward_bind (forward_accept _) fun _ => forward_ite (forward_skipWhile _) (forward_fail _)

theorem forward_wholePart : Forward wholePart :=
  forward_bind (forward_accept _) fun _ => forward_ite (forward_pure ()) forward_someDigits

theorem forward_fractionPart : Forward fractionPart :=
  forward_bind (forward_accept _) fun _ => forward_ite forward_someDigits (forward_pure _)

theorem forward_exponentPart : Forward exponentPart :=
  forward_bind (forward_accept _) fun _ =>
    forward_ite (forward_bind (forward_accept _) fun _ => forward_someDigits) (forward_pure _)

theorem forward_number : Forward number :=
  forward_bind forward_get fun _ => forward_bind (forward_accept _) fun _ =>
    forward_bind forward_wholePart fun _ => forward_bind forward_fractionPart fun _ =>
      forward_bind forward_exponentPart fun _ => forward_bind forward_get fun _ => forward_pure _

theorem forward_hex4 : Forward hex4 := by
  intro s
  unfold hex4
  split
  · split
    · exact s.reaches_drop 4
    · exact .refl s
  · exact .refl s

theorem forward_charOf (n : Nat) : Forward (charOf n) :=
  forward_ite (forward_pure _) (forward_fail _)

theorem forward_lowSurrogate (high : Nat) : Forward (lowSurrogate high) :=
  forward_bind (forward_acceptBytes _) fun _ =>
    forward_ite
      (forward_bind forward_hex4 fun _ => forward_ite (forward_charOf _) (forward_fail _))
      (forward_fail _)

theorem forward_unicodeEscape : Forward unicodeEscape :=
  forward_bind forward_hex4 fun _ => forward_ite (forward_lowSurrogate _) (forward_charOf _)

theorem forward_escape : Forward escape := by
  refine forward_bind forward_peek fun b => ?_
  cases b with
  | none => exact forward_fail _
  | some b =>
    refine forward_bind (forward_skip 1) fun _ => forward_ite forward_unicodeEscape ?_
    cases shortEscape? b with
    | none => exact forward_failEscape
    | some c => exact forward_pure c

/-! ## Reading a string -/

/-- Reads a string behind its opening quote, up to and with its closing quote. `out` is the text read
so far. -/
def stringBody (out : String) (s : Scanner) : EStateM.Result Fault Scanner String :=
  let raw := s.rest.takeWhile isRaw
  match _hs : (s.drop raw.length).rest with
  | [] => fail .unterminatedString s
  | b :: _ =>
    if raw.any (· < Ascii.space) then fail .controlCharacter s
    else
      let out := out ++ chunkText raw
      if b = Ascii.quote then .ok out ((s.drop raw.length).drop 1)
      else
        match _he : escape ((s.drop raw.length).drop 1) with
        | .ok c after => stringBody (out.push c) after
        | .error fault after => .error fault after
termination_by s.rest.length
decreasing_by
  have h := (forward_escape ((s.drop raw.length).drop 1)).length_le
  rw [_he] at h
  have hd := Scanner.length_drop_one_lt _hs
  have hr := (s.reaches_drop raw.length).length_le
  simp only [EStateM.Result.left_ok] at h
  omega

/-- A string from its opening quote on, as the text it stands for. -/
def string : Scan String := fun s =>
  stringBody "" (s.drop 1)

theorem forward_stringBody (out : String) : Forward (stringBody out) := by
  intro s
  fun_induction stringBody out s with
  | case1 => exact .refl _
  | case2 => exact .refl _
  | case3 => exact (Scanner.reaches_drop _ _).trans (Scanner.reaches_drop _ 1)
  | case4 out s raw _ _ _ _ _ _ c after he ih =>
    have h := forward_escape ((s.drop raw.length).drop 1)
    rw [he] at h
    exact ((s.reaches_drop _).trans (Scanner.reaches_drop _ 1)).trans (h.trans ih)
  | case5 out s raw _ _ _ _ _ fault after he =>
    have h := forward_escape ((s.drop raw.length).drop 1)
    rw [he] at h
    exact ((s.reaches_drop _).trans (Scanner.reaches_drop _ 1)).trans h

theorem forward_string : Forward string :=
  fun s => (s.reaches_drop 1).trans (forward_stringBody "" _)

/-- The text of a scalar that starts with a byte; a null has none. -/
def scalar (b : UInt8) : Scan (Option String) :=
  if b = Ascii.quote then return some (← string)
  else if b = Ascii.byte 't' then return some (← literal "true")
  else if b = Ascii.byte 'f' then return some (← literal "false")
  else if b = Ascii.byte 'n' then do
    let _ ← literal "null"
    return none
  else if b = Ascii.hyphen || Ascii.isDigit b then return some (← number)
  else fail .unexpectedCharacter

/-! ## A token takes bytes -/

/-- An operation that takes at least one byte when it does not fail. -/
def Takes (m : Scan α) : Prop :=
  ∀ s t a, m s = .ok a t → t.rest.length < s.rest.length

theorem length_le_of_forward {m : Scan α} (hm : Forward m) {s t : Scanner} {a : α}
    (h : m s = .ok a t) : t.rest.length ≤ s.rest.length := by
  have := (hm s).length_le
  rwa [h] at this

theorem takes_then {m : Scan α} {f : α → Scan β} (hm : Takes m) (hf : ∀ a, Forward (f a)) :
    Takes (m >>= f) := by
  intro s u b h
  obtain ⟨a, t, h₁, h₂⟩ := EStateM.bind_eq_ok.mp h
  exact Nat.lt_of_le_of_lt (length_le_of_forward (hf a) h₂) (hm _ _ _ h₁)

theorem takes_of_forward {m : Scan α} {f : α → Scan β} (hm : Forward m) (hf : ∀ a, Takes (f a)) :
    Takes (m >>= f) := by
  intro s u b h
  obtain ⟨a, t, h₁, h₂⟩ := EStateM.bind_eq_ok.mp h
  exact Nat.lt_of_lt_of_le (hf a _ _ _ h₂) (length_le_of_forward hm h₁)

theorem takes_fail (reason : Reason) : Takes (fail reason : Scan α) := by
  intro s t a h
  cases h

theorem accept_true {p : UInt8 → Bool} {s t : Scanner} (h : accept p s = .ok true t) :
    t.rest.length < s.rest.length := by
  unfold accept at h
  split at h
  next hp =>
    cases h
    match hs : s.rest with
    | [] => simp [hs] at hp
    | b :: more => exact hs ▸ Scanner.length_drop_one_lt hs
  next => cases h

theorem takes_accept_then {p : UInt8 → Bool} {m n : Scan α} (hm : Forward m) (hn : Takes n) :
    Takes (do if ← accept p then m else n) := by
  intro s u a h
  obtain ⟨taken, t, h₁, h₂⟩ := EStateM.bind_eq_ok.mp h
  cases taken with
  | true => exact Nat.lt_of_le_of_lt (length_le_of_forward hm h₂) (accept_true h₁)
  | false => exact Nat.lt_of_lt_of_le (hn _ _ _ h₂) (length_le_of_forward (forward_accept p) h₁)

theorem takes_someDigits : Takes someDigits :=
  takes_accept_then (forward_skipWhile _) (takes_fail _)

theorem takes_wholePart : Takes wholePart :=
  takes_accept_then (forward_pure ()) takes_someDigits

theorem takes_number : Takes number :=
  takes_of_forward forward_get fun _ => takes_of_forward (forward_accept _) fun _ =>
    takes_then takes_wholePart fun _ => forward_bind forward_fractionPart fun _ =>
      forward_bind forward_exponentPart fun _ => forward_bind forward_get fun _ => forward_pure _

theorem takes_literal {word : String} (h : word ≠ "") : Takes (literal word) := by
  intro s u a hs
  obtain ⟨taken, t, h₁, h₂⟩ := EStateM.bind_eq_ok.mp hs
  cases taken with
  | false => cases h₂
  | true =>
    cases h₂
    unfold acceptBytes at h₁
    split at h₁
    next hp =>
      cases h₁
      have hlen := (List.isPrefixOf_iff_prefix.mp hp).length_le
      have hpos : 0 < (Ascii.bytes word).length := by
        rw [Ascii.bytes, List.length_map, List.length_pos_iff]
        simpa using h
      simp only [Scanner.drop, List.length_drop]
      omega
    next => cases h₁

theorem takes_stringBody (out : String) : Takes (stringBody out) := by
  intro s t a h
  fun_induction stringBody out s with
  | case1 => cases h
  | case2 => cases h
  | case3 _ _ _ _ _ _ hs =>
    simp only [EStateM.Result.ok.injEq] at h
    obtain ⟨_, rfl⟩ := h
    exact Nat.lt_of_lt_of_le (Scanner.length_drop_one_lt hs) (Scanner.reaches_drop _ _).length_le
  | case4 out s raw b more hs _ _ _ c after he ih =>
    have h₁ := length_le_of_forward forward_escape he
    have h₂ := Scanner.length_drop_one_lt hs
    have h₃ := (s.reaches_drop raw.length).length_le
    have h₄ := ih h
    omega
  | case5 => cases h

theorem takes_string : Takes string := fun s _ _ h =>
  Nat.lt_of_lt_of_le (takes_stringBody "" _ _ _ h) (s.reaches_drop 1).length_le

theorem takes_scalar (b : UInt8) : Takes (scalar b) := by
  unfold scalar
  split
  · exact takes_then takes_string fun _ => forward_pure _
  split
  · exact takes_then (takes_literal (by decide)) fun _ => forward_pure _
  split
  · exact takes_then (takes_literal (by decide)) fun _ => forward_pure _
  split
  · exact takes_then (takes_literal (by decide)) fun _ => forward_pure _
  split
  · exact takes_then takes_number fun _ => forward_pure _
  · exact takes_fail _

end Scan

end DocWalk.Json
