import DocWalk.Event
import DocWalk.Xml.Reader
import DocWalk.Xml.Reference

/-!
# The node of a tag

The attributes of a tag are read from the left, each with all its checks before the next: its key,
the equals sign, that the key is new, the quoted value, and the text of the value. A declaration of a
namespace is checked like the others, but its value is not looked at, and it is no attribute of the
node. Names are cut down to what stands behind the first colon.

Faults tell byte offsets in the content of the tag. The bytes left, `rest`, start at the offset
`total - rest.length`.
-/

set_option autoImplicit false

namespace DocWalk.Xml

/-- An attribute as it is written. -/
structure RawAttribute where
  key : List UInt8
  /-- Where the key starts. -/
  offset : Nat
  value : List UInt8
  deriving DecidableEq, Repr, Inhabited

/-- What stands behind the first colon, or all of a name without one. -/
def localName (name : List UInt8) : List UInt8 :=
  match name.dropWhile (· ≠ Ascii.colon) with
  | [] => name
  | _ :: rest => rest

/-- Whether a key declares a namespace. -/
def isNamespace (key : List UInt8) : Bool :=
  let word := Ascii.bytes "xmlns"
  key = word || (word ++ [Ascii.colon]).isPrefixOf key

namespace RawAttribute

/-- Bytes from the first that is not blank. -/
def skipBlanks (bytes : List UInt8) : List UInt8 :=
  bytes.dropWhile Ascii.isBlank

/-- Reads a quoted value: the value, and what stands behind its closing quote. -/
def readValue (total : Nat) (bytes : List UInt8) :
    Except AttributeFault (List UInt8 × List UInt8) :=
  match skipBlanks bytes with
  | [] => .error (.expectedValue total)
  | q :: rest =>
    if q = Ascii.quote ∨ q = Ascii.apostrophe then
      let value := rest.takeWhile (· ≠ q)
      if value.length = rest.length then .error (.missingQuote total (.ofNat q.toNat))
      else .ok (value, rest.drop (value.length + 1))
    else .error (.unquotedValue (total - (rest.length + 1)))

/-- Reads the attribute whose key starts with the byte `first`; `seen` are those before it. The first
byte belongs to the key, whatever it is. -/
def readFrom (total : Nat) (seen : List RawAttribute) (first : UInt8) (rest : List UInt8) :
    Except AttributeFault (RawAttribute × List UInt8) :=
  let key := first :: rest.takeWhile fun b => b ≠ Ascii.equals && !Ascii.isBlank b
  let offset := total - (rest.length + 1)
  match skipBlanks (rest.drop (key.length - 1)) with
  | [] => .error (.expectedEquals total)
  | b :: behind =>
    if b = Ascii.equals then
      match seen.find? (·.key = key) with
      | some previous => .error (.duplicate offset previous.offset)
      | none =>
        match readValue total behind with
        | .error fault => .error fault
        | .ok (value, behind) => .ok (⟨key, offset, value⟩, behind)
    else .error (.expectedEquals (total - (behind.length + 1)))

theorem length_skipBlanks_le (bytes : List UInt8) : (skipBlanks bytes).length ≤ bytes.length :=
  (List.dropWhile_sublist _).length_le

theorem readValue_le {total : Nat} {bytes value behind : List UInt8}
    (h : readValue total bytes = .ok (value, behind)) : behind.length ≤ bytes.length := by
  have hle := length_skipBlanks_le bytes
  unfold readValue at h
  split at h
  · cases h
  next q rest hq =>
    rw [hq] at hle
    split at h
    · simp only at h
      split at h
      · cases h
      · cases h
        simp only [List.length_drop, List.length_cons] at hle ⊢
        omega
    · cases h

theorem readFrom_le {total : Nat} {seen : List RawAttribute} {first : UInt8}
    {rest behind : List UInt8} {raw : RawAttribute}
    (h : readFrom total seen first rest = .ok (raw, behind)) : behind.length ≤ rest.length := by
  unfold readFrom at h
  simp only at h
  split at h
  · cases h
  next b more hb =>
    have hle := length_skipBlanks_le (rest.drop
      ((first :: rest.takeWhile fun b => b ≠ Ascii.equals && !Ascii.isBlank b).length - 1))
    rw [hb] at hle
    simp only [List.length_drop, List.length_cons] at hle
    split at h
    · split at h
      · cases h
      split at h
      · cases h
      next hv =>
        cases h
        have := readValue_le hv
        omega
    · cases h

end RawAttribute

/-- The attributes of a tag's content, from its bytes left. -/
def readAttributes (total : Nat) (seen : List RawAttribute) (bytes : List UInt8) :
    Except Fault (List Attribute) :=
  match _hb : RawAttribute.skipBlanks bytes with
  | [] => .ok []
  | first :: rest =>
    match _hr : RawAttribute.readFrom total seen first rest with
    | .error fault => .error (.badAttribute fault)
    | .ok (raw, behind) =>
      if isNamespace raw.key then readAttributes total (seen ++ [raw]) behind
      else
        match readText raw.value with
        | .error fault => .error fault
        | .ok value =>
          (readAttributes total (seen ++ [raw]) behind).map
            (⟨Utf8.decodeLossy (localName raw.key), value⟩ :: ·)
termination_by bytes.length
decreasing_by
  all_goals
    have h₁ := RawAttribute.length_skipBlanks_le bytes
    have h₂ := RawAttribute.readFrom_le _hr
    rw [_hb] at h₁
    simp only [List.length_cons] at h₁
    omega

/-- The node that a tag opens. -/
def Tag.node (tag : Tag) : Except Fault Node := do
  let attributes ← readAttributes tag.content.length [] (tag.content.drop tag.name.length)
  return ⟨Utf8.decodeLossy (localName tag.name), attributes⟩

end DocWalk.Xml
