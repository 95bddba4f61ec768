import DocWalk.Outcome
import DocWalk.Primitive
import DocWalk.Proofs.Text.Characters
import Mathlib.Algebra.Group.Nat.Defs
import Mathlib.Data.List.Basic

/-!
# Base64 in one form

The encoding is told by bits: those of all bytes in a row, cut into groups of six, with zeros to fill
up the last group and equals signs to fill up the text. `Writes` says that much and nothing of groups
of three bytes, which is how the encoder and the decoder go.

A group of four symbols and three bytes are the same bits cut in two ways. `bits_cut` is the one fact
about cutting; the encoder's quotients and remainders are cuts of it.

**The law** (`decode_byteBuffer`): a text is read as some bytes exactly when it writes them, and for
any bytes there is exactly one such text. A symbol outside the alphabet, one behind the padding, a
wrong length and spare bits that are not zero are all refused by this, since no encoding has them.
-/

set_option autoImplicit false

namespace DocWalk.Base64

/-! ## The form -/

/-- The symbols, each at the place of its value. -/
def alphabet : List Char :=
  "ABCDEFGHIJKLMNOPQRSTUVWXYZabcdefghijklmnopqrstuvwxyz0123456789+/".toList

/-- The lowest bits of a number, the highest of them first. -/
def bits : Nat → Nat → List Bool
  | 0, _ => []
  | width + 1, n => n.testBit width :: bits width n

/-- Some bytes and the characters that write them: symbols whose bits are those of the bytes and fewer
than six zeros, and equals signs up to a multiple of four. -/
inductive Writes : List UInt8 → List Char → Prop where
  | mk {bytes : List UInt8} {symbols : List Char} {spare padding : Nat} :
      (∀ c ∈ symbols, c ∈ alphabet) →
      symbols.flatMap (fun c => bits 6 (alphabet.idxOf c)) =
        bytes.flatMap (fun b => bits 8 b.toNat) ++ List.replicate spare false →
      spare < 6 → padding < 4 → 4 ∣ symbols.length + padding →
      Writes bytes (symbols ++ List.replicate padding '=')

/-! ## Bits -/

@[simp] theorem length_bits (width n : Nat) : (bits width n).length = width := by
  induction width with
  | zero => rfl
  | succ width ih => rw [bits, List.length_cons, ih]

/-- The lowest bits are those of the remainder. -/
theorem bits_mod (width n : Nat) : bits width (n % 2 ^ width) = bits width n := by
  have hbits : ∀ w ≤ width, bits w (n % 2 ^ width) = bits w n := by
    intro w hw
    induction w with
    | zero => rfl
    | succ w ih =>
      rw [bits, bits, ih (by omega), Nat.testBit_mod_two_pow, decide_eq_true (by omega),
        Bool.true_and]
  exact hbits width (Nat.le_refl _)

/-- Bits are cut where a number is divided. -/
theorem bits_cut (m k n : Nat) : bits (m + k) n = bits m (n / 2 ^ k) ++ bits k (n % 2 ^ k) := by
  rw [bits_mod]
  induction m with
  | zero => rw [Nat.zero_add, bits, List.nil_append]
  | succ m ih => rw [Nat.succ_add, bits, bits, ih, Nat.testBit_add, List.cons_append]

/-- Bits are put together as the number was divided. -/
theorem bits_join (m k : Nat) {x y : Nat} (hy : y < 2 ^ k) :
    bits (m + k) (x * 2 ^ k + y) = bits m x ++ bits k y := by
  have hk : 0 < 2 ^ k := Nat.two_pow_pos k
  have hhigh : (x * 2 ^ k + y) / 2 ^ k = x := by
    rw [Nat.mul_comm, Nat.mul_add_div hk, Nat.div_eq_of_lt hy, Nat.add_zero]
  rw [bits_cut, hhigh, Nat.mul_add_mod_of_lt hy]

theorem bits_zero (width : Nat) : bits width 0 = List.replicate width false := by
  induction width with
  | zero => rfl
  | succ width ih => rw [bits, ih, Nat.zero_testBit, List.replicate_succ]

/-- A number is known by its bits. -/
theorem eq_of_bits {width m n : Nat} (hm : m < 2 ^ width) (hn : n < 2 ^ width)
    (h : bits width m = bits width n) : m = n := by
  have hbit : ∀ i < width, m.testBit i = n.testBit i := by
    clear hm hn
    induction width with
    | zero => exact nofun
    | succ width ih =>
      obtain ⟨hfirst, hrest⟩ := List.cons.inj h
      intro i hi
      rcases Nat.lt_succ_iff_lt_or_eq.mp hi with hi | rfl
      · exact ih hrest i hi
      · exact hfirst
  apply Nat.eq_of_testBit_eq
  intro i
  by_cases hi : i < width
  · exact hbit i hi
  · have hpow : 2 ^ width ≤ 2 ^ i := Nat.pow_le_pow_right (by decide) (Nat.not_lt.mp hi)
    rw [Nat.testBit_lt_two_pow (Nat.lt_of_lt_of_le hm hpow),
      Nat.testBit_lt_two_pow (Nat.lt_of_lt_of_le hn hpow)]

/-! ## One form -/

theorem idxOf_lt {c : Char} (h : c ∈ alphabet) : alphabet.idxOf c < 2 ^ 6 := by
  have hlt := List.idxOf_lt_length_of_mem h
  have hlength : alphabet.length = 64 := by decide
  omega

theorem length_flatMap_bits {α : Type} (width : Nat) (f : α → Nat) (xs : List α) :
    (xs.flatMap fun x => bits width (f x)).length = width * xs.length := by
  induction xs with
  | nil => rfl
  | cons x xs ih =>
    rw [List.flatMap_cons, List.length_append, length_bits, ih, List.length_cons, Nat.mul_succ,
      Nat.add_comm]

/-- Symbols are known by their bits. -/
theorem eq_of_symbols {xs ys : List Char} (hx : ∀ c ∈ xs, c ∈ alphabet)
    (hy : ∀ c ∈ ys, c ∈ alphabet)
    (h : xs.flatMap (fun c => bits 6 (alphabet.idxOf c)) =
      ys.flatMap (fun c => bits 6 (alphabet.idxOf c))) : xs = ys := by
  have hlength := congrArg List.length h
  rw [length_flatMap_bits, length_flatMap_bits] at hlength
  induction xs generalizing ys with
  | nil =>
    cases ys with
    | nil => rfl
    | cons => simp at hlength
  | cons x xs ih =>
    cases ys with
    | nil => simp at hlength
    | cons y ys =>
      rw [List.forall_mem_cons] at hx hy
      rw [List.flatMap_cons, List.flatMap_cons] at h
      obtain ⟨hfirst, hrest⟩ := List.append_inj h (by rw [length_bits, length_bits])
      have hplace := eq_of_bits (idxOf_lt hx.1) (idxOf_lt hy.1) hfirst
      have hlength : xs.length = ys.length := by
        rw [List.length_cons, List.length_cons] at hlength
        omega
      rw [(List.idxOf_inj hx.1).mp hplace, ih hx.2 hy.2 hrest (by rw [hlength])]

/-- Bytes are written in one way. -/
theorem Writes.unique {bytes : List UInt8} {xs ys : List Char} (hx : Writes bytes xs)
    (hy : Writes bytes ys) : xs = ys := by
  cases hx with
  | @mk xs m p hxs hxbits hm hp hxlength =>
    cases hy with
    | @mk ys n q hys hybits hn hq hylength =>
      -- The bits are so many more than a multiple of six, which is how many zeros stand behind them.
      have hxcount := congrArg List.length hxbits
      have hycount := congrArg List.length hybits
      rw [List.length_append, List.length_replicate, length_flatMap_bits, length_flatMap_bits]
        at hxcount hycount
      obtain rfl : m = n := by omega
      obtain rfl := eq_of_symbols hxs hys (hxbits.trans hybits.symm)
      obtain rfl : p = q := by omega
      rfl

/-! ## Encoding -/

/-- The symbols of the alphabet are those of the encoder, each at its value. -/
theorem symbol_char {v : Nat} (h : v < 64) :
    ∃ c ∈ alphabet, alphabet.idxOf c = v ∧ c.toNat < 128 ∧ Ascii.byte c = symbol v := by
  have htable : ∀ v < 64, alphabet.getD v '=' ∈ alphabet ∧
      alphabet.idxOf (alphabet.getD v '=') = v ∧ (alphabet.getD v '=').toNat < 128 ∧
        Ascii.byte (alphabet.getD v '=') = symbol v := by
    decide +kernel
  exact ⟨_, htable v h⟩

theorem exists_symbols {values : List Nat} (h : ∀ v ∈ values, v < 64) :
    ∃ symbols : List Char, (∀ c ∈ symbols, c ∈ alphabet) ∧
      symbols.map (alphabet.idxOf ·) = values ∧ Utf8.encodeChars symbols = values.map symbol := by
  induction values with
  | nil => exact ⟨[], nofun, rfl, rfl⟩
  | cons v values ih =>
    rw [List.forall_mem_cons] at h
    obtain ⟨c, hc, hplace, hascii, hbyte⟩ := symbol_char h.1
    obtain ⟨symbols, hsymbols, hplaces, hbytes⟩ := ih h.2
    refine ⟨c :: symbols, List.forall_mem_cons.mpr ⟨hc, hsymbols⟩, ?_, ?_⟩
    · rw [List.map_cons, hplace, hplaces]
    · rw [Utf8.encodeChars_cons_ascii hascii, hbyte, hbytes, List.map_cons]

theorem encodeChars_padding (n : Nat) :
    Utf8.encodeChars (List.replicate n '=') = List.replicate n Ascii.equals := by
  induction n with
  | zero => rfl
  | succ n ih =>
    rw [List.replicate_succ, Utf8.encodeChars_cons_ascii (by decide), ih]
    rfl

section

variable (a b c : Nat)

/-! The cuts of three bytes in a row, and of four symbols. -/

theorem bits_first : bits 8 a = bits 6 (a / 4) ++ bits 2 (a % 4) :=
  bits_cut 6 2 a

theorem bits_second : bits 8 b = bits 4 (b / 16) ++ bits 4 (b % 16) :=
  bits_cut 4 4 b

theorem bits_third : bits 8 c = bits 2 (c / 64) ++ bits 6 (c % 64) :=
  bits_cut 2 6 c

theorem bits_across {b : Nat} (hb : b < 16) : bits 6 (a % 4 * 16 + b) = bits 2 (a % 4) ++ bits 4 b :=
  bits_join 2 4 hb

theorem bits_across' {c : Nat} (hc : c < 4) : bits 6 (b % 16 * 4 + c) = bits 4 (b % 16) ++ bits 2 c :=
  bits_join 4 2 hc

end

/-- The encoder's symbols have the bits of the bytes, with zeros behind them. -/
theorem encode_values (bytes : List UInt8) : ∃ values spare padding,
    encode bytes = List.map symbol values ++ List.replicate padding Ascii.equals ∧
      (∀ v ∈ values, v < 64) ∧
      values.flatMap (bits 6) =
        bytes.flatMap (fun b => bits 8 b.toNat) ++ List.replicate spare false ∧
      spare < 6 ∧ padding < 4 ∧ 4 ∣ values.length + padding := by
  have lt (b : UInt8) : b.toNat < 256 := b.toNat_lt
  fun_induction encode bytes with
  | case1 => exact ⟨[], 0, 0, rfl, List.forall_mem_nil _, rfl, by decide, by decide, by decide⟩
  | case2 a =>
    have ha := lt a
    refine ⟨[a.toNat / 4, a.toNat % 4 * 16], 4, 2, rfl, ?_, ?_, by decide, by decide, ⟨1, rfl⟩⟩
    · simp only [List.forall_mem_cons]
      exact ⟨by omega, by omega, List.forall_mem_nil _⟩
    · have hlast := bits_across a.toNat (show 0 < 16 by decide)
      rw [Nat.add_zero] at hlast
      simp only [List.flatMap_cons, List.flatMap_nil, bits_first a.toNat, hlast, bits_zero,
        List.append_assoc, List.append_nil]
  | case3 a b =>
    have ha := lt a
    have hb := lt b
    refine ⟨[a.toNat / 4, a.toNat % 4 * 16 + b.toNat / 16, b.toNat % 16 * 4], 2, 1, rfl, ?_, ?_,
      by decide, by decide, ⟨1, rfl⟩⟩
    · simp only [List.forall_mem_cons]
      exact ⟨by omega, by omega, by omega, List.forall_mem_nil _⟩
    · have hab := bits_across a.toNat (show b.toNat / 16 < 16 by omega)
      have hlast := bits_across' b.toNat (show 0 < 4 by decide)
      rw [Nat.add_zero] at hlast
      simp only [List.flatMap_cons, List.flatMap_nil, bits_first a.toNat, bits_second b.toNat, hab,
        hlast, bits_zero, List.append_assoc, List.append_nil]
  | case4 a b c rest ih =>
    have ha := lt a
    have hb := lt b
    have hc := lt c
    obtain ⟨values, spare, padding, hencode, hvalues, hbits, hspare, hpadding, hlength⟩ := ih
    refine ⟨a.toNat / 4 :: (a.toNat % 4 * 16 + b.toNat / 16) :: (b.toNat % 16 * 4 + c.toNat / 64)
      :: c.toNat % 64 :: values, spare, padding, ?_, ?_, ?_, hspare, hpadding, ?_⟩
    · rw [hencode]
      rfl
    · simp only [List.forall_mem_cons]
      exact ⟨by omega, by omega, by omega, by omega, hvalues⟩
    · have hab := bits_across a.toNat (show b.toNat / 16 < 16 by omega)
      have hbc := bits_across' b.toNat (show c.toNat / 64 < 4 by omega)
      simp only [List.flatMap_cons, hbits, bits_first a.toNat, bits_second b.toNat,
        bits_third c.toNat, hab, hbc, List.append_assoc]
    · simp only [List.length_cons]
      omega

theorem exists_writes (bytes : List UInt8) :
    ∃ chars, Writes bytes chars ∧ Utf8.encodeChars chars = encode bytes := by
  obtain ⟨values, spare, padding, hencode, hvalues, hbits, hspare, hpadding, hlength⟩ :=
    encode_values bytes
  obtain ⟨symbols, hsymbols, rfl, hbytes⟩ := exists_symbols hvalues
  refine ⟨symbols ++ List.replicate padding '=', ?_, ?_⟩
  · rw [List.flatMap_map] at hbits
    rw [List.length_map] at hlength
    exact .mk hsymbols hbits hspare hpadding hlength
  · rw [Utf8.encodeChars_append, hbytes, encodeChars_padding, hencode]

/-- What the encoder writes of some bytes is the text that writes them. -/
theorem writes_iff {bytes : List UInt8} {chars : List Char} :
    Writes bytes chars ↔ Utf8.encodeChars chars = encode bytes := by
  obtain ⟨written, hwrites, hwritten⟩ := exists_writes bytes
  constructor
  · intro h
    rw [h.unique hwrites, hwritten]
  · intro h
    rw [Utf8.encodeChars_injective (h.trans hwritten.symm)]
    exact hwrites

/-! ## Decoding -/

/-- A symbol's value is read from the byte that stands for it. -/
theorem value?_eq_some_iff {b : UInt8} {v : Nat} : value? b = some v ↔ v < 64 ∧ b = symbol v := by
  constructor
  · have htable : ∀ n < 256, ∀ w, value? (UInt8.ofNat n) = some w →
        w < 64 ∧ UInt8.ofNat n = symbol w := by
      intro n hn w hw
      have hall : ∀ n < 256,
          (value? (UInt8.ofNat n)).all (fun w => w < 64 ∧ UInt8.ofNat n = symbol w) := by
        decide +kernel
      have h := hall n hn
      rw [hw] at h
      simpa using h
    intro h
    have hb := htable b.toNat b.toNat_lt v
    rw [UInt8.ofNat_toNat] at hb
    exact hb h
  · rintro ⟨hv, rfl⟩
    have htable : ∀ v < 64, value? (symbol v) = some v := by decide +kernel
    exact htable v hv

theorem valueAt_eq_ok_iff {offset : Nat} {b : UInt8} {v : Nat} :
    valueAt offset b = .ok v ↔ v < 64 ∧ b = symbol v := by
  rw [← value?_eq_some_iff, valueAt]
  cases value? b <;> simp

theorem symbol_ne_equals {v : Nat} (h : v < 64) : symbol v ≠ Ascii.equals := by
  have htable : ∀ v < 64, symbol v ≠ Ascii.equals := by decide +kernel
  exact htable v h

/-- Bytes that are read one by one are symbols, each of its value. -/
theorem mapM_valueAt_eq_ok_iff {start : Nat} {bytes : List UInt8} {values : List Nat} :
    ((bytes.zipIdx start).mapM fun (b, offset) => valueAt offset b) = .ok values ↔
      bytes = values.map symbol ∧ ∀ v ∈ values, v < 64 := by
  induction bytes generalizing start values with
  | nil =>
    constructor
    · intro h
      cases h
      exact ⟨rfl, nofun⟩
    · rintro ⟨h, _⟩
      rw [List.map_eq_nil_iff.mp h.symm]
      rfl
  | cons b bytes ih =>
    rw [List.zipIdx_cons, List.mapM_cons]
    constructor
    · intro h
      cases hb : valueAt start b with
      | error fault =>
        simp only [hb] at h
        cases h
      | ok v =>
        cases hrest : (bytes.zipIdx (start + 1)).mapM fun (b, offset) => valueAt offset b with
        | error fault =>
          simp only [hb, hrest] at h
          cases h
        | ok rest =>
          simp only [hb, hrest] at h
          cases h
          obtain ⟨hv, rfl⟩ := valueAt_eq_ok_iff.mp hb
          obtain ⟨rfl, hall⟩ := ih.mp hrest
          exact ⟨rfl, List.forall_mem_cons.mpr ⟨hv, hall⟩⟩
    · rintro ⟨h, hall⟩
      obtain ⟨v, rest, rfl, rfl, rfl⟩ := List.map_eq_cons_iff.mp h.symm
      rw [List.forall_mem_cons] at hall
      have hv : valueAt start (symbol v) = .ok v := valueAt_eq_ok_iff.mpr ⟨hall.1, rfl⟩
      simp only [hv, ih.mpr ⟨rfl, hall.2⟩]
      rfl

/-- The symbols of a group end at its first equals sign. -/
theorem takeWhile_symbols {values : List Nat} (h : ∀ v ∈ values, v < 64) (padding : Nat) :
    (values.map symbol ++ List.replicate padding Ascii.equals).takeWhile
      (fun b => decide (b ≠ Ascii.equals)) = values.map symbol := by
  rw [List.takeWhile_append_of_pos]
  · cases padding <;> simp [List.replicate_succ]
  · intro b hb
    obtain ⟨v, hv, rfl⟩ := List.mem_map.mp hb
    exact decide_eq_true (symbol_ne_equals (h v hv))

/-- The last group is read as symbols and the equals signs behind them. -/
theorem readLast_eq_ok_iff {start padding : Nat} {group : List UInt8} {values : List Nat} :
    readLast start group = .ok (values, padding) ↔
      group = values.map symbol ++ List.replicate padding Ascii.equals ∧
        (∀ v ∈ values, v < 64) ∧ (padding = 0 ∨ 2 ≤ values.length) := by
  unfold readLast
  constructor
  · obtain ⟨tail, htail⟩ := List.takeWhile_prefix (fun b => decide (b ≠ Ascii.equals)) (l := group)
    have hdrop : group.drop (group.takeWhile fun b => decide (b ≠ Ascii.equals)).length = tail := by
      nth_rewrite 2 [← htail]
      exact List.drop_left
    intro h
    simp only [hdrop] at h
    split at h
    next => cases h
    next read hread =>
      obtain ⟨hsymbols, hall⟩ := mapM_valueAt_eq_ok_iff.mp hread
      rw [hsymbols] at htail
      split at h
      next hempty =>
        cases h
        rw [List.isEmpty_iff.mp hempty] at htail
        exact ⟨htail.symm, hall, .inl rfl⟩
      next =>
        split at h
        next => cases h
        next hpadding =>
          cases h
          rw [Bool.or_eq_true, not_or, decide_eq_true_iff, hsymbols, List.length_map,
            List.any_eq_true] at hpadding
          have htail' : tail = List.replicate tail.length Ascii.equals := by
            rw [List.eq_replicate_iff]
            refine ⟨rfl, fun b hb => ?_⟩
            by_contra hne
            exact hpadding.2 ⟨b, hb, decide_eq_true hne⟩
          rw [← htail', htail]
          exact ⟨rfl, hall, .inr (by omega)⟩
  · rintro ⟨rfl, hall, hpadding⟩
    have hread : (((values.map symbol).zipIdx start).mapM fun (b, offset) => valueAt offset b) =
        .ok values := mapM_valueAt_eq_ok_iff.mpr ⟨rfl, hall⟩
    simp only [takeWhile_symbols hall, hread, List.drop_left]
    rw [List.length_map]
    split
    next hempty =>
      rw [List.isEmpty_iff, List.replicate_eq_nil_iff] at hempty
      rw [hempty]
    next hempty =>
      have htwo : ¬ values.length < 2 := by
        rcases hpadding with rfl | hpadding
        · exact absurd rfl hempty
        · exact Nat.not_lt.mpr hpadding
      simp [htwo]

section

variable {a b c d : Nat}

/-! The three bytes of four symbols. -/

theorem toNat_first (ha : a < 64) (hb : b < 64) :
    (a * 4 + b / 16).toUInt8.toNat = a * 4 + b / 16 :=
  UInt8.toNat_ofNat_of_lt (show _ < 256 by omega)

theorem toNat_second (hc : c < 64) :
    (b % 16 * 16 + c / 4).toUInt8.toNat = b % 16 * 16 + c / 4 :=
  UInt8.toNat_ofNat_of_lt (show _ < 256 by omega)

theorem toNat_third (hd : d < 64) : (c % 4 * 64 + d).toUInt8.toNat = c % 4 * 64 + d :=
  UInt8.toNat_ofNat_of_lt (show _ < 256 by omega)

/-- Four symbols write the bytes they are read as. -/
theorem encode_of_symbols (ha : a < 64) (hb : b < 64) (hc : c < 64) (hd : d < 64)
    (rest : List UInt8) :
    encode ((a * 4 + b / 16).toUInt8 :: (b % 16 * 16 + c / 4).toUInt8 :: (c % 4 * 64 + d).toUInt8
      :: rest) = symbol a :: symbol b :: symbol c :: symbol d :: encode rest := by
  rw [encode, toNat_first ha hb, toNat_second hc, toNat_third hd,
    show (a * 4 + b / 16) / 4 = a by omega,
    show (a * 4 + b / 16) % 4 * 16 + (b % 16 * 16 + c / 4) / 16 = b by omega,
    show (b % 16 * 16 + c / 4) % 16 * 4 + (c % 4 * 64 + d) / 64 = c by omega,
    show (c % 4 * 64 + d) % 64 = d by omega]

/-- Three symbols without spare bits write the bytes they are read as. -/
theorem encode_of_three (ha : a < 64) (hb : b < 64) (hc : c < 64) (hspare : c % 4 = 0) :
    encode [(a * 4 + b / 16).toUInt8, (b % 16 * 16 + c / 4).toUInt8] =
      [symbol a, symbol b, symbol c, Ascii.equals] := by
  rw [encode, toNat_first ha hb, toNat_second hc,
    show (a * 4 + b / 16) / 4 = a by omega,
    show (a * 4 + b / 16) % 4 * 16 + (b % 16 * 16 + c / 4) / 16 = b by omega,
    show (b % 16 * 16 + c / 4) % 16 * 4 = c by omega]

/-- Two symbols without spare bits write the byte they are read as. -/
theorem encode_of_two (ha : a < 64) (hb : b < 64) (hspare : b % 16 = 0) :
    encode [(a * 4 + b / 16).toUInt8] = [symbol a, symbol b, Ascii.equals, Ascii.equals] := by
  rw [encode, toNat_first ha hb,
    show (a * 4 + b / 16) / 4 = a by omega,
    show (a * 4 + b / 16) % 4 * 16 = b by omega]

end

/-- A last group is what the encoder writes of the bytes it is decoded to. -/
theorem eq_encode_of_decodeLast {start : Nat} {group bytes : List UInt8} (hlength : group.length ≤ 4)
    (h : decodeLast start group = .ok bytes) : group = encode bytes := by
  unfold decodeLast at h
  split at h
  next => cases h
  next values padding hread =>
    obtain ⟨rfl, hvalues, -⟩ := readLast_eq_ok_iff.mp hread
    rw [List.length_append, List.length_map, List.length_replicate] at hlength
    split at h
    next => cases h
    next htwo =>
      split at h
      next => cases h
      next hfour =>
        -- Symbols and padding are four together, so two, three or four are symbols.
        rw [Nat.not_lt] at htwo
        rw [not_not] at hfour
        obtain _ | ⟨a, _ | ⟨b, _ | ⟨c, _ | ⟨d, _ | ⟨e, values⟩⟩⟩⟩⟩ := values <;>
          simp only [List.length_cons, List.length_nil, List.forall_mem_cons] at *
        · omega
        · omega
        · obtain ⟨ha, hb, -⟩ := hvalues
          obtain rfl : padding = 2 := by omega
          simp only [finish] at h
          split at h
          next hspare =>
            cases h
            exact (encode_of_two ha hb (of_decide_eq_true hspare)).symm
          next => cases h
        · obtain ⟨ha, hb, hc, -⟩ := hvalues
          obtain rfl : padding = 1 := by omega
          simp only [finish] at h
          split at h
          next hspare =>
            cases h
            exact (encode_of_three ha hb hc (of_decide_eq_true hspare)).symm
          next => cases h
        · obtain ⟨ha, hb, hc, hd, -⟩ := hvalues
          obtain rfl : padding = 0 := by omega
          cases h
          exact (encode_of_symbols ha hb hc hd []).symm
        · omega

/-- A whole group of symbols and padding gets as far as its spare bits. -/
theorem decodeLast_symbols (start padding : Nat) {values : List Nat} (hvalues : ∀ v ∈ values, v < 64)
    (htwo : 2 ≤ values.length) (hfour : 4 ∣ values.length + padding) :
    decodeLast start (values.map symbol ++ List.replicate padding Ascii.equals) =
      finish start (values.map symbol ++ List.replicate padding Ascii.equals) values := by
  have hread : readLast start (values.map symbol ++ List.replicate padding Ascii.equals) =
      .ok (values, padding) := readLast_eq_ok_iff.mpr ⟨rfl, hvalues, .inr htwo⟩
  rw [decodeLast, hread]
  simp only [if_neg (Nat.not_lt.mpr htwo), Nat.mod_eq_zero_of_dvd hfour, ne_eq, not_true_eq_false,
    if_false]

theorem toUInt8_eq {n : Nat} {b : UInt8} (h : n = b.toNat) : n.toUInt8 = b := by
  rw [h]
  exact UInt8.ofNat_toNat

/-- What the encoder writes of one, two or three bytes is decoded to them. -/
theorem decodeLast_encode {bytes : List UInt8} (start : Nat) (hne : bytes ≠ [])
    (hlength : bytes.length ≤ 3) : decodeLast start (encode bytes) = .ok bytes := by
  have lt (b : UInt8) : b.toNat < 256 := b.toNat_lt
  obtain _ | ⟨a, _ | ⟨b, _ | ⟨c, _ | ⟨d, bytes⟩⟩⟩⟩ := bytes
  · exact absurd rfl hne
  · have ha := lt a
    have hvalues : ∀ v ∈ [a.toNat / 4, a.toNat % 4 * 16], v < 64 := by
      simp only [List.forall_mem_cons]
      exact ⟨by omega, by omega, List.forall_mem_nil _⟩
    refine (decodeLast_symbols start 2 hvalues (Nat.le_refl 2) ⟨1, rfl⟩).trans ?_
    simp only [finish]
    rw [if_pos (decide_eq_true (by omega)), @toUInt8_eq _ a (by omega)]
  · have ha := lt a
    have hb := lt b
    have hvalues : ∀ v ∈ [a.toNat / 4, a.toNat % 4 * 16 + b.toNat / 16, b.toNat % 16 * 4],
        v < 64 := by
      simp only [List.forall_mem_cons]
      exact ⟨by omega, by omega, by omega, List.forall_mem_nil _⟩
    refine (decodeLast_symbols start 1 hvalues (Nat.le_succ 2) ⟨1, rfl⟩).trans ?_
    simp only [finish]
    rw [if_pos (decide_eq_true (by omega)), @toUInt8_eq _ a (by omega), @toUInt8_eq _ b (by omega)]
  · have ha := lt a
    have hb := lt b
    have hc := lt c
    have hvalues : ∀ v ∈ [a.toNat / 4, a.toNat % 4 * 16 + b.toNat / 16,
        b.toNat % 16 * 4 + c.toNat / 64, c.toNat % 64], v < 64 := by
      simp only [List.forall_mem_cons]
      exact ⟨by omega, by omega, by omega, by omega, List.forall_mem_nil _⟩
    refine (decodeLast_symbols start 0 hvalues (Nat.le_add_left 2 2) ⟨1, rfl⟩).trans ?_
    simp only [finish]
    rw [@toUInt8_eq _ a (by omega), @toUInt8_eq _ b (by omega), @toUInt8_eq _ c (by omega)]
  · simp only [List.length_cons] at hlength
    omega

/-- The groups are what the encoder writes of the bytes they are decoded to. -/
theorem eq_encode_of_decodeGroups {start : Nat} {text bytes : List UInt8}
    (h : decodeGroups start text = .ok bytes) : text = encode bytes := by
  fun_induction decodeGroups start text generalizing bytes with
  | case1 =>
    cases h
    rfl
  | case6 start a b c d e rest va vb vc vd hd hc hb ha ih =>
    obtain ⟨bytes, hrest, rfl⟩ := Except.map_eq_ok.mp h
    rw [valueAt_eq_ok_iff] at ha hb hc hd
    rw [encode_of_symbols ha.1 hb.1 hc.1 hd.1, ← ih hrest, ha.2, hb.2, hc.2, hd.2]
  | case7 start group hne hfive =>
    refine eq_encode_of_decodeLast ?_ h
    obtain _ | ⟨a, _ | ⟨b, _ | ⟨c, _ | ⟨d, _ | ⟨e, rest⟩⟩⟩⟩⟩ := group
    · exact Nat.zero_le 4
    · exact Nat.le_add_left 1 3
    · exact Nat.le_add_left 2 2
    · exact Nat.le_add_left 3 1
    · exact Nat.le_refl 4
    · exact (hfive a b c d e rest rfl).elim
  | _ => cases h

theorem encode_ne_nil {bytes : List UInt8} (h : bytes ≠ []) : encode bytes ≠ [] := by
  fun_cases encode bytes with
  | case1 => exact absurd rfl h
  | _ => exact List.cons_ne_nil _ _

/-- What the encoder writes is decoded to the bytes. -/
theorem decodeGroups_encode (start : Nat) (bytes : List UInt8) :
    decodeGroups start (encode bytes) = .ok bytes := by
  fun_induction encode bytes generalizing start with
  | case1 => rfl
  | case2 a => exact decodeLast_encode start (List.cons_ne_nil a []) (by simp)
  | case3 a b => exact decodeLast_encode start (List.cons_ne_nil a [b]) (by simp)
  | case4 a b c rest ih =>
    by_cases hrest : rest = []
    · rw [hrest]
      exact decodeLast_encode start (List.cons_ne_nil a [b, c]) (by simp)
    · obtain ⟨e, tail, htail⟩ := List.exists_cons_of_ne_nil (encode_ne_nil hrest)
      have ha : a.toNat < 256 := a.toNat_lt
      have hb : b.toNat < 256 := b.toNat_lt
      have hc : c.toNat < 256 := c.toNat_lt
      have reads (offset : Nat) {v : Nat} (hv : v < 64) : valueAt offset (symbol v) = .ok v :=
        valueAt_eq_ok_iff.mpr ⟨hv, rfl⟩
      rw [htail, decodeGroups, ← htail, ih, reads _ (by omega), reads _ (by omega),
        reads _ (by omega), reads _ (by omega)]
      simp only [Except.map]
      rw [@toUInt8_eq _ a (by omega), @toUInt8_eq _ b (by omega), @toUInt8_eq _ c (by omega)]

theorem four_dvd_length_encode (bytes : List UInt8) : 4 ∣ (encode bytes).length := by
  fun_induction encode bytes with
  | case1 => exact Nat.dvd_zero 4
  | case4 a b c rest ih =>
    simp only [List.length_cons]
    omega
  | _ => exact Nat.dvd_refl 4

/-- A text is decoded exactly when it is what the encoder writes. -/
theorem decode_eq_ok_iff {text bytes : List UInt8} :
    decode text = .ok bytes ↔ text = encode bytes := by
  unfold decode
  constructor
  · intro h
    split at h
    next hnone =>
      cases h
      exact List.getLast?_eq_none_iff.mp hnone
    next =>
      split at h
      next => cases h
      next => exact eq_encode_of_decodeGroups h
  · rintro rfl
    split
    next hnone =>
      have hgroups := decodeGroups_encode 0 bytes
      rw [List.getLast?_eq_none_iff.mp hnone] at hgroups
      exact hgroups
    next =>
      have hlength := four_dvd_length_encode bytes
      rw [if_neg]
      · exact decodeGroups_encode 0 bytes
      · simp only [Bool.and_eq_true, decide_eq_true_eq]
        omega

/-- The last symbol has bits to spare. -/
example : decode (Utf8.encode "Zm9v") = .ok [0x66, 0x6F, 0x6F] ∧
    decode (Utf8.encode "Zm8=") = .ok [0x66, 0x6F] ∧
    decode (Utf8.encode "Zm9=") = .error (.invalidLastSymbol 0x39 2) := by
  decide +kernel

end DocWalk.Base64

namespace DocWalk

open Base64

theorem decode_byteBuffer_iff {text : String} {bytes : List UInt8} :
    Kind.byteBuffer.decode text = .ok (.byteBuffer bytes) ↔ Writes bytes text.toList := by
  have hdecode : Kind.byteBuffer.decode text = .ok (.byteBuffer bytes) ↔
      Base64.decode (Utf8.encode text) = .ok bytes := by
    rw [Kind.decode]
    cases Base64.decode (Utf8.encode text) <;> simp [Except.mapError, Except.map]
  rw [hdecode, decode_eq_ok_iff, writes_iff]
  rfl

/-- A text is read as some bytes exactly when it writes them, and any bytes are read from one text. -/
theorem decode_byteBuffer :
    (∀ text bytes, Kind.byteBuffer.decode text = .ok (.byteBuffer bytes) ↔
      Writes bytes text.toList) ∧
    ∀ bytes, ∃! text, Kind.byteBuffer.decode text = .ok (.byteBuffer bytes) := by
  refine ⟨fun text bytes => decode_byteBuffer_iff, fun bytes => ?_⟩
  obtain ⟨chars, hwrites, -⟩ := exists_writes bytes
  refine ⟨String.ofList chars, decode_byteBuffer_iff.mpr ?_, fun other hother => ?_⟩
  · rw [String.toList_ofList]
    exact hwrites
  · rw [hwrites.unique (decode_byteBuffer_iff.mp hother), String.ofList_toList]

end DocWalk
