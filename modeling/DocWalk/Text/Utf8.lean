/-!
# Text as UTF-8 bytes

A document is a sequence of bytes, and its texts are what the bytes stand for. `decode` takes only
well-formed bytes and says where and how the others go wrong; `decodeLossy` puts U+FFFD in the place
of each longest start of a character that goes wrong, and always answers.

`decode_encode` is the law: the bytes of a text stand for that text.
-/

set_option autoImplicit false

namespace DocWalk.Utf8

/-- The bytes of some characters. -/
def encodeChars (chars : List Char) : List UInt8 :=
  chars.flatMap String.utf8EncodeChar

/-- The bytes of a text. -/
def encode (text : String) : List UInt8 :=
  encodeChars text.toList

/-- Number of bytes of some characters. -/
def byteLength (chars : List Char) : Nat :=
  chars.foldl (fun n c => n + c.utf8Size) 0

/-- The character that the bytes start with. -/
def head? (bytes : List UInt8) : Option Char :=
  (bytes.take 4).toByteArray.utf8DecodeChar? 0

/-- How bytes fail to start with a character. -/
inductive Flaw where
  /-- So many bytes start a character, but cannot be gone on with. -/
  | malformed (width : Nat)
  /-- The bytes end inside a character. -/
  | truncated
  deriving DecidableEq, Repr, Inhabited

/-- For the first byte of a character of several bytes: the least and the greatest second byte, and
the number of bytes after the second. -/
def continuation? (b : UInt8) : Option (UInt8 × UInt8 × Nat) :=
  if 0xC2 ≤ b && b ≤ 0xDF then some (0x80, 0xBF, 0)
  else if b = 0xE0 then some (0xA0, 0xBF, 1)
  else if b = 0xED then some (0x80, 0x9F, 1)
  else if 0xE1 ≤ b && b ≤ 0xEF then some (0x80, 0xBF, 1)
  else if b = 0xF0 then some (0x90, 0xBF, 2)
  else if 0xF1 ≤ b && b ≤ 0xF3 then some (0x80, 0xBF, 2)
  else if b = 0xF4 then some (0x80, 0x8F, 2)
  else none

/-- How the bytes `b :: rest` fail to start with a character, when they do. -/
def flaw (b : UInt8) (rest : List UInt8) : Flaw :=
  match continuation? b, rest with
  | none, _ => .malformed 1
  | some _, [] => .truncated
  | some (least, greatest, more), second :: rest =>
    if second < least || greatest < second then .malformed 1
    else
      let good := (rest.take more).takeWhile fun c => 0x80 ≤ c && c ≤ 0xBF
      if good.length = rest.length then .truncated else .malformed (2 + good.length)

/-- Where bytes stop being UTF-8, and how. -/
structure Fault where
  index : Nat
  flaw : Flaw
  deriving DecidableEq, Repr, Inhabited

/-- The words for a fault. -/
def Fault.message (fault : Fault) : String :=
  match fault.flaw with
  | .malformed width =>
    "invalid utf-8 sequence of " ++ toString width ++ " bytes from index " ++ toString fault.index
  | .truncated => "incomplete utf-8 byte sequence from index " ++ toString fault.index

/-- The characters of well-formed bytes that start at an index. -/
def decodeChars (index : Nat) : List UInt8 → Except Fault (List Char)
  | [] => .ok []
  | b :: rest =>
    match head? (b :: rest) with
    | none => .error ⟨index, flaw b rest⟩
    | some c => (decodeChars (index + c.utf8Size) (rest.drop (c.utf8Size - 1))).map (c :: ·)
termination_by bytes => bytes.length
decreasing_by simp only [List.length_drop, List.length_cons]; omega

/-- The text of well-formed bytes. -/
def decode (bytes : List UInt8) : Except Fault String :=
  (decodeChars 0 bytes).map .ofList

/-- The characters of any bytes, with U+FFFD for each flaw. -/
def decodeLossyChars : List UInt8 → List Char
  | [] => []
  | b :: rest =>
    match head? (b :: rest) with
    | some c => c :: decodeLossyChars (rest.drop (c.utf8Size - 1))
    | none =>
      match flaw b rest with
      | .truncated => ['\uFFFD']
      | .malformed width => '\uFFFD' :: decodeLossyChars (rest.drop (width - 1))
termination_by bytes => bytes.length
decreasing_by all_goals simp only [List.length_drop, List.length_cons]; omega

/-- The text of any bytes, with U+FFFD for each flaw. -/
def decodeLossy (bytes : List UInt8) : String :=
  .ofList (decodeLossyChars bytes)

/-! ## The law -/

theorem utf8EncodeChar_ne_nil (c : Char) : String.utf8EncodeChar c ≠ [] := by
  intro h
  have := String.length_utf8EncodeChar c
  have := c.utf8Size_pos
  simp_all

/-- The bytes of a character start with it, whatever follows. -/
theorem head?_encode_append (c : Char) (rest : List UInt8) :
    head? (String.utf8EncodeChar c ++ rest) = some c := by
  have hlen : (String.utf8EncodeChar c).length ≤ 4 := by
    simpa using c.utf8Size_le_four
  rw [head?, List.take_append, List.take_of_length_le hlen, List.toByteArray_append]
  exact ByteArray.utf8DecodeChar?_utf8EncodeChar_append

theorem decodeChars_encodeChars (chars : List Char) (index : Nat) :
    decodeChars index (encodeChars chars) = .ok chars := by
  induction chars generalizing index with
  | nil => simp [encodeChars, decodeChars]
  | cons c chars ih =>
    have hc : encodeChars (c :: chars) = String.utf8EncodeChar c ++ encodeChars chars := rfl
    have hhead := head?_encode_append c (encodeChars chars)
    have hlen := String.length_utf8EncodeChar c
    rw [hc]
    match hb : String.utf8EncodeChar c with
    | [] => exact absurd hb (utf8EncodeChar_ne_nil c)
    | b :: more =>
      rw [hb] at hhead hlen
      have hdrop : (more ++ encodeChars chars).drop (c.utf8Size - 1) = encodeChars chars := by
        rw [show c.utf8Size - 1 = more.length by simp at hlen; omega, List.drop_left]
      rw [List.cons_append] at hhead ⊢
      rw [decodeChars, hhead]
      simp only [hdrop, ih, Except.map]

/-- The bytes of a text stand for that text. -/
theorem decode_encode (text : String) : decode (encode text) = .ok text := by
  simp [decode, encode, decodeChars_encodeChars, Except.map]

end DocWalk.Utf8
