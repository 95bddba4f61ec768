import DocWalk.Proofs.Cursor.Arrival
import DocWalk.Proofs.Json.Completeness
import DocWalk.Proofs.Number.Decimal

/-!
# Numbers keep every digit

The number of a JSON text is given as it is written, as the one text of its member, and a decimal is
read of that text. The grammar of JSON allows a part of the numerals that a decimal is read of, so no
number is refused but for its exponent or its scale, and what is read is the number that is written.

**The law** (`read_bigDecimal`): at a member of an object, wherever the object stands in a text, a
number is read exactly.
-/

set_option autoImplicit false

namespace DocWalk.Json

open Decimal (Numeral)

/-! ## Numbers are numerals -/

namespace Grammar

theorem isDigit_eq (c : Char) : isDigit c = c.isDigit := by
  rw [Bool.eq_iff_iff, Char.isDigit_iff_toNat]
  simp [isDigit]

theorem Digits.all {chars : List Char} (h : Digits chars) : chars.all Char.isDigit := by
  rw [List.all_eq_true]
  intro c hc
  rw [← isDigit_eq]
  exact h.isDigit c hc

theorem Whole.toDigits {chars : List Char} (h : Whole chars) : Digits chars := by
  cases h with
  | zero => exact ⟨by decide, List.all_eq_true.mp rfl⟩
  | digits h _ => exact h

theorem isNumeral_of_digits {sign digits : List Char} (hsign : sign ∈ [[], ['+'], ['-']])
    (h : Digits digits) : ∃ negative, IsNumeral negative digits (sign ++ digits) := by
  simp only [List.mem_cons, List.not_mem_nil, or_false] at hsign
  rcases hsign with rfl | rfl | rfl
  · exact ⟨false, .plain h.ne_nil h.all⟩
  · exact ⟨false, .plus h.ne_nil h.all⟩
  · exact ⟨true, .minus h.ne_nil h.all⟩

/-- Every number of JSON is the text of a numeral. -/
theorem Number.written {chars : List Char} (h : Number chars) :
    ∃ n : Numeral, n.Written chars := by
  cases h with
  | @mk sign whole fraction exponent hsign hwhole hfraction hexponent =>
    have hsigns : sign ∈ [[], ['+'], ['-']] := by
      simp only [List.mem_cons, List.not_mem_nil, or_false] at hsign ⊢
      exact hsign.imp_right .inr
    obtain ⟨negative, hnumeral⟩ := isNumeral_of_digits hsigns hwhole.toDigits
    obtain ⟨places, hplaces⟩ : ∃ places, Decimal.FractionText places fraction := by
      cases hfraction with
      | absent => exact ⟨[], .absent⟩
      | present h => exact ⟨_, .present h.all⟩
    obtain ⟨power, hpower⟩ : ∃ power, Decimal.ExponentText power exponent := by
      cases hexponent with
      | absent => exact ⟨0, .absent⟩
      | present hletter hsign h =>
        obtain ⟨_, hnumeral⟩ := isNumeral_of_digits hsign h
        exact ⟨_, .present (by simpa using hletter) hnumeral⟩
    exact ⟨_, .mk hnumeral hplaces hpower⟩

end Grammar

/-! ## Values in values -/

theorem elementEvents_append (elements more : List Value) :
    elementEvents (elements ++ more) = elementEvents elements ++ elementEvents more := by
  induction elements with
  | nil => rfl
  | cons v rest ih => simp only [List.cons_append, elementEvents, ih, List.append_assoc]

theorem memberEvents_append (members more : List (String × Value)) :
    memberEvents (members ++ more) = memberEvents members ++ memberEvents more := by
  induction members with
  | nil => rfl
  | cons m rest ih => simp only [List.cons_append, memberEvents, ih, List.append_assoc]

/-- A value, another that it is or holds at some depth, and the events in front of this one and
behind it. -/
inductive Holds : Value → Value → List Event → List Event → Prop where
  | self (v : Value) : Holds v v [] []
  | element {v w : Value} {front behind : List Event} (before after : List Value) :
      Holds v w front behind →
      Holds (.array (before ++ v :: after)) w
        (elementEvents before ++ .startNode { name := "member" } :: front)
        (behind ++ .endNode :: elementEvents after)
  | member {v w : Value} {front behind : List Event} (before after : List (String × Value))
      (key : String) : Holds v w front behind →
      Holds (.object (before ++ (key, v) :: after)) w
        (memberEvents before ++ .startNode { name := key } :: front)
        (behind ++ .endNode :: memberEvents after)

theorem Holds.events_eq {v w : Value} {front behind : List Event} (h : Holds v w front behind) :
    v.events = front ++ w.events ++ behind := by
  induction h with
  | self => rw [List.nil_append, List.append_nil]
  | element before after _ ih =>
    simp only [Value.events, elementEvents_append, elementEvents, ih, List.append_assoc,
      List.cons_append]
  | member before after key _ ih =>
    simp only [Value.events, memberEvents_append, memberEvents, ih, List.append_assoc,
      List.cons_append]

mutual

/-- A value closes the nodes that it opens. -/
theorem Value.balanced {depth : Nat} {rest : List Event} (h : Balanced depth rest) :
    ∀ v : Value, Balanced depth (v.events ++ rest)
  | .null => h
  | .bool _ => .text h
  | .number _ => .text h
  | .string _ => .text h
  | .array elements => by
    rw [Value.events]
    exact balanced_elementEvents h elements
  | .object members => by
    rw [Value.events]
    exact balanced_memberEvents h members

theorem balanced_elementEvents {depth : Nat} {rest : List Event} (h : Balanced depth rest) :
    ∀ elements : List Value, Balanced depth (elementEvents elements ++ rest)
  | [] => h
  | v :: more => by
    have hmore := Balanced.endNode (balanced_elementEvents h more)
    simp only [elementEvents, List.append_assoc, List.cons_append]
    exact .startNode (Value.balanced hmore v)

theorem balanced_memberEvents {depth : Nat} {rest : List Event} (h : Balanced depth rest) :
    ∀ members : List (String × Value), Balanced depth (memberEvents members ++ rest)
  | [] => h
  | (_, v) :: more => by
    have hmore := Balanced.endNode (balanced_memberEvents h more)
    simp only [memberEvents, List.append_assoc, List.cons_append]
    exact .startNode (Value.balanced hmore v)

end

theorem Value.balanced_events (v : Value) : Balanced 0 v.events := by
  have h := v.balanced .nil
  rwa [List.append_nil] at h

namespace Tokenizer

open Grammar
open Cursor (Foresees InFront Walks watching)

variable {v : Value} {text : String}

/-- What a document shows is no attribute and has none. -/
theorem plain_document (v : Value) : ∀ event ∈ Event.startDocument :: v.events,
    event.isAttribute = false ∧ event.attributes = [] := by
  rw [List.forall_mem_cons]
  refine ⟨⟨rfl, rfl⟩, fun event hmem => ?_⟩
  cases v.plain_events event hmem <;> exact ⟨rfl, rfl⟩

section

variable {front rest : List Event} (hsplit : .startDocument :: v.events = front ++ rest)

include hsplit

/-- A walk over a text that has shown the first events stands in front of the others. -/
theorem foresees_of_walks (hv : IsText v text) {config : Config}
    {headers : Option (List (String × String))} {expressions : List Expression}
    {shown : List Cursor.Visit} {c : Cursor Tokenizer}
    (hwalks : Walks (watching (ofText text) config headers expressions) shown c)
    (hshown : shown.map Cursor.Visit.event = front) : ∃ final, Foresees c rest final := by
  have hforesees := Cursor.foresees_watching config headers expressions (emits_ofText hv)
    v.balanced_events
  have hplain := plain_document v
  rw [hsplit] at hforesees hplain
  exact ⟨_, hforesees.walks hwalks hshown
    fun event hmem => (hplain event (List.mem_append_left rest hmem)).1⟩

/-- Without a limit there is such a walk. -/
theorem exists_walks (hv : IsText v text) {config : Config} (hlimit : config.maxDepth = none)
    (headers : Option (List (String × String))) (expressions : List Expression) :
    ∃ shown c, Walks (watching (ofText text) config headers expressions) shown c ∧
      shown.map Cursor.Visit.event = front := by
  have hstart : InFront (watching (ofText text) config headers expressions) [] []
      (.startDocument :: v.events) := by
    rw [Cursor.watching_eq]
    exact ⟨emits_ofText hv, rfl, rfl, fun _ => rfl, hlimit⟩
  have hahead : Upcoming 0 (.startDocument :: v.events) := .whole v.balanced_events
  have hplain := plain_document v
  rw [hsplit] at hstart hahead hplain
  exact hstart.walks_events hahead
    fun event hmem => (hplain event (List.mem_append_left rest hmem)).2

end

/-! ## The law -/

/-- The events up to a member of an object, the opening of its node included. -/
def eventsTo (front : List Event) (before : List (String × Value)) (key : String) : List Event :=
  .startDocument :: front ++ memberEvents before ++ [.startNode { name := key }]

theorem events_at_member {before after : List (String × Value)} {key literal : String}
    {front behind : List Event}
    (h : Holds v (.object (before ++ (key, .number literal) :: after)) front behind) :
    .startDocument :: v.events = eventsTo front before key ++
      (.text literal :: .endNode :: (memberEvents after ++ behind)) := by
  rw [h.events_eq]
  simp only [eventsTo, Value.events, memberEvents_append, memberEvents, List.append_assoc,
    List.cons_append, List.nil_append]

/-- **A number is read exactly.** Let an object stand anywhere in a JSON text and have a number as a
member, whose exponent has 128 bits and whose scale has 64. A cursor that has advanced to the member,
whatever it watches and whatever its limit, reads it as the number that is written, with as many
places as the literal has less its exponent. Without a limit every such member is advanced to. -/
theorem read_bigDecimal (hv : IsText v text) {before after : List (String × Value)} {key : String}
    {chars : List Char} {front behind : List Event}
    (hplace : Holds v (.object (before ++ (key, .number (.ofList chars)) :: after)) front behind)
    (hnumber : Number chars) :
    (∃ n : Numeral, n.Written chars) ∧
    ∀ n : Numeral, n.Written chars → (Bounds.signed 128).Contains n.exponent →
      (Bounds.signed 64).Contains n.scale →
      ∀ (config : Config) (headers : Option (List (String × String)))
        (expressions : List Expression),
      (∀ shown c, Walks (watching (ofText text) config headers expressions) shown c →
        shown.map Cursor.Visit.event = eventsTo front before key →
        ∃ decimal d, Cursor.read .bigDecimal c = .ok (.bigDecimal decimal) d ∧
          decimal.value = n.value ∧ decimal.scale = n.scale) ∧
      (config.maxDepth = none →
        ∃ shown c, Walks (watching (ofText text) config headers expressions) shown c ∧
          shown.map Cursor.Visit.event = eventsTo front before key) := by
  refine ⟨hnumber.written, fun n hn hexponent hscale config headers expressions => ⟨?_, ?_⟩⟩
  · intro shown c hwalks hshown
    obtain ⟨final, hforesees⟩ := foresees_of_walks (events_at_member hplace) hv hwalks hshown
    obtain ⟨visits, last, rfl, _, hlast⟩ := List.map_eq_append_iff.mp hshown
    obtain ⟨visit, rfl, hvisit⟩ := List.map_eq_singleton_iff.mp hlast
    have hcurrent : c.current = some (.startNode { name := key }) :=
      hwalks.current_eq.trans (congrArg some hvisit)
    obtain ⟨d, hread, _⟩ := hforesees.readText_leaf hcurrent
    have hdecode : Kind.bigDecimal.decode (.ofList chars) =
        .ok (.bigDecimal ⟨n.unscaled, n.scale⟩) := by
      rw [Kind.decode, Decimal.read_of_written hn hexponent hscale]
      rfl
    have hdecimal : Cursor.read .bigDecimal c = .ok (.bigDecimal ⟨n.unscaled, n.scale⟩)
        (d.tell (Kind.bigDecimal.notices (.ofList chars))) := by
      rw [Cursor.read_eq, hread, Cursor.decodeText, hdecode]
    exact ⟨_, _, hdecimal, Decimal.value_numeral n, rfl⟩
  · intro hlimit
    exact exists_walks (events_at_member hplace) hv hlimit headers expressions

/-- A number with a point and an exponent, behind a member that holds more. -/
theorem read_bigDecimal_exponent :
    IsText (.object [("a", .array [.number "1"]), ("n", .number "-12.340e+2")])
        r#"{"a":[1], "n" : -12.340e+2}"# ∧
      ∃ shown c, Walks (watching (ofText r#"{"a":[1], "n" : -12.340e+2}"#) {} none [])
          shown c ∧
        shown.map Cursor.Visit.event = [.startDocument, .startNode { name := "a" },
          .startNode { name := "member" }, .text "1", .endNode, .endNode,
          .startNode { name := "n" }] ∧
        ∃ decimal d, Cursor.read .bigDecimal c = .ok (.bigDecimal decimal) d ∧
          decimal.value = -1234 ∧ decimal.scale = 1 := by
  have digits {chars : List Char} (hne : chars ≠ []) (hall : chars.all isDigit = true) :
      Digits chars := ⟨hne, List.all_eq_true.mp hall⟩
  have one : Number ['1'] :=
    @Number.mk [] ['1'] [] [] (by decide) (.digits (digits (by decide) rfl) (by decide)) .absent
      .absent
  have number : Number "-12.340e+2".toList :=
    @Number.mk ['-'] ['1', '2'] ['.', '3', '4', '0'] ['e', '+', '2'] (by decide)
      (.digits (digits (by decide) rfl) (by decide)) (.present (digits (by decide) rfl))
      (@Exponent.present 'e' ['+'] ['2'] (by decide) (by decide) (digits (by decide) rfl))
  have a : Quoted "a" ['"', 'a', '"'] := @Quoted.mk "a" ['a'] (.raw rfl .nil)
  have n : Quoted "n" ['"', 'n', '"'] := @Quoted.mk "n" ['n'] (.raw rfl .nil)
  have array : Written (.array [.number "1"]) ['[', '1', ']'] :=
    .array (.one (@Spaced.mk _ [] ['1'] [] nofun (.scalar (.number one)) nofun))
  have object := Written.object (.more
    (@Member.mk "a" _ [] _ [] _ nofun a nofun (@Spaced.mk _ [] _ [] nofun array nofun))
    (.one (@Member.mk "n" _ [' '] _ [' '] _ (by decide) n (by decide)
      (@Spaced.mk _ [' '] _ [] (by decide) (.scalar (.number number)) nofun))))
  have isText : IsText (.object [("a", .array [.number "1"]), ("n", .number "-12.340e+2")])
      r#"{"a":[1], "n" : -12.340e+2}"# := @Spaced.mk _ [] _ [] nofun object nofun
  let numeral : Numeral := ⟨true, ['1', '2'], ['3', '4', '0'], 2⟩
  have hwritten : numeral.Written "-12.340e+2".toList :=
    .mk (.minus (by decide) rfl) (.present rfl)
      (@Decimal.ExponentText.present 'e' false ['2'] ['+', '2'] (.inl rfl) (.plus (by decide) rfl))
  have hvalue : numeral.value = -1234 := by
    have hwhole : Digits.toNat 0 ['1', '2'] = 12 := rfl
    have hfraction : Digits.toNat 0 ['3', '4', '0'] = 340 := rfl
    show (if true then -1 else 1) * ((Digits.toNat 0 ['1', '2'] : ℚ) +
      Digits.toNat 0 ['3', '4', '0'] / 10 ^ 3) * 10 ^ (2 : ℤ) = -1234
    rw [hwhole, hfraction]
    norm_num
  have hplace := Holds.self
    (.object ([("a", .array [.number "1"])] ++ ("n", .number "-12.340e+2") :: []))
  obtain ⟨hreads, hwalk⟩ := (read_bigDecimal isText hplace number).2 numeral hwritten
    (by decide) (by decide) {} none []
  obtain ⟨shown, c, hwalks, hshown⟩ := hwalk rfl
  obtain ⟨decimal, d, hread, hexact, hscale⟩ := hreads shown c hwalks hshown
  exact ⟨isText, shown, c, hwalks, hshown, decimal, d, hread, hexact.trans hvalue, hscale⟩

end Tokenizer

end DocWalk.Json
