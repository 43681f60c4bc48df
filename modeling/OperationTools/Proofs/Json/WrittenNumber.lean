import OperationTools.Json.Reader
import OperationTools.Json.Writer
import OperationTools.Proofs.Number.Rounding
import OperationTools.Proofs.Text.Digits

/-!
# Reading written numbers

A written number is read back: its sign, the digits on either side of the point and its exponent are
told from each other and from what follows the number. An integer is read as one, unless it has more
digits than are read, and any other number always has a point or an exponent.

## Main definitions

* `Json.isNumberPart`: the characters that go on with a number
* `Json.WholeDigits`: the digits in front of a point
* `Json.Pointed`: a text with digits on both sides of a point

## Main results

* `Json.readNumber_toString`: a written integer reads back
* `Json.readNumber_decimalText`: a written decimal is read as its number
* `Json.readNumber_text`: a written finite number reads back
-/

namespace OperationTools

open Text (Stops)

namespace Text

/-- A positive number is not written with a zero in front. -/
theorem head?_toDigits_ne_zero {n : Nat} (h : 0 < n) : (Nat.toDigits 10 n).head? ≠ some '0' := by
  induction n using Nat.strongRecOn with
  | _ n ih =>
    rcases Nat.lt_or_ge n 10 with hlt | hge
    · have hdigit : ∀ m : Fin 10, 0 < m.val → [Nat.digitChar m.val].head? ≠ some '0' := by decide
      rw [Nat.toDigits_of_lt_base hlt]
      exact hdigit ⟨n, hlt⟩ h
    · rw [Nat.toDigits_of_base_le (by decide) hge,
        List.head?_append_of_ne_nil _ Nat.toDigits_ne_nil]
      exact ih (n / 10) (by omega) (by omega)

/-- The digits of a number begin with a zero only if there is nothing else. -/
theorem toDigits_eq_of_head? {n : Nat} (h : (Nat.toDigits 10 n).head? = some '0') :
    Nat.toDigits 10 n = ['0'] := by
  rcases Nat.eq_zero_or_pos n with rfl | hpos
  · rfl
  · exact absurd h (head?_toDigits_ne_zero hpos)

theorem isDigit_of_mem_zeros {k : Nat} {c : Char} (h : c ∈ List.replicate k '0') :
    c.isDigit = true := by
  rw [List.eq_of_mem_replicate h]
  rfl

end Text

namespace Json

/-- The characters that go on with a number. -/
def isNumberPart (c : Char) : Bool := c.isDigit || c = '.' || c = 'e' || c = 'E'

variable {rest after : List Char} {w f : List Char}

theorem stops_isDigit (h : Stops isNumberPart rest) : Stops Char.isDigit rest := by
  intro c hc
  have := h c hc
  simp only [isNumberPart, Bool.or_eq_false_iff] at this
  exact this.1.1.1

/-! ## Parts of numbers -/

/-- The digits in front of the point: at least one, and a zero comes first only if there is nothing
else. -/
structure WholeDigits (w : List Char) : Prop where
  ne_nil : w ≠ []
  isDigit : ∀ c ∈ w, c.isDigit = true
  eq_of_head? : w.head? = some '0' → w = ['0']

theorem wholeDigits_toDigits (n : Nat) : WholeDigits (Nat.toDigits 10 n) where
  ne_nil := Nat.toDigits_ne_nil
  isDigit _ hc := Text.isDigit_of_mem_toDigits hc
  eq_of_head? := Text.toDigits_eq_of_head?

theorem wholeDigits_singleton {c : Char} (hc : c.isDigit = true) : WholeDigits [c] where
  ne_nil := List.cons_ne_nil c []
  isDigit _ hd := List.mem_singleton.1 hd ▸ hc
  eq_of_head? h := congrArg (fun d => [d]) (Option.some.inj h)

theorem wholePart_append (hw : WholeDigits w) (hrest : Stops Char.isDigit rest) :
    wholePart (w ++ rest) = (w, rest) := by
  obtain ⟨c, tail, rfl⟩ := List.exists_cons_of_ne_nil hw.ne_nil
  unfold wholePart
  split
  · rename_i he
    obtain ⟨rfl, hw'⟩ := List.cons.inj he
    obtain rfl : tail = [] := (List.cons.inj (hw.eq_of_head? rfl)).2
    exact congrArg _ hw'.symm
  · rw [Text.takeWhile_append_of_stops hw.isDigit hrest,
      Text.dropWhile_append_of_stops hw.isDigit hrest]

theorem fractionPart_point (hne : f ≠ []) (hf : ∀ c ∈ f, c.isDigit = true)
    (hrest : Stops Char.isDigit rest) : fractionPart ('.' :: (f ++ rest)) = (f, rest) := by
  cases f with
  | nil => exact absurd rfl hne
  | cons c f =>
    have hc : c.isDigit = true := hf c List.mem_cons_self
    have hf' : ∀ d ∈ f, d.isDigit = true := fun d hd => hf d (List.mem_cons_of_mem _ hd)
    rw [List.cons_append, fractionPart, if_pos hc, List.takeWhile_cons_of_pos hc,
      Text.takeWhile_append_of_stops hf' hrest, Text.dropWhile_append_of_stops hf' hrest]

theorem fractionPart_of_stops (h : Stops (· = '.') rest) : fractionPart rest = ([], rest) := by
  unfold fractionPart
  split
  · exact absurd (Text.stops_cons.1 h) (by decide)
  · rfl

theorem exponentPart_of_stops (h : Stops isNumberPart rest) : exponentPart rest = (none, rest) := by
  unfold exponentPart
  split
  · rename_i c tail
    have hc := Text.stops_cons.1 h
    simp only [isNumberPart, Bool.or_eq_false_iff] at hc
    rw [if_neg (by simp [hc])]
  · rfl

/-- An exponent is written with a sign and digits. -/
theorem exponentPart_append (negative : Bool) (hne : f ≠ []) (hf : ∀ c ∈ f, c.isDigit = true)
    (hrest : Stops Char.isDigit rest) :
    exponentPart ('e' :: (if negative then '-' else '+') :: (f ++ rest)) =
      (some (if negative then -(Text.digitsValue f : Int) else Text.digitsValue f), rest) := by
  have hempty : f.isEmpty = false := by simpa using hne
  cases negative <;>
    simp [exponentPart, exponentSign, Text.takeWhile_append_of_stops hf hrest,
      Text.dropWhile_append_of_stops hf hrest, hempty]

/-! ## Numbers -/

/-- A number is read by its parts. -/
theorem readNumber_of_parts {negative : Bool} {exponent? : Option Int} {afterWhole : List Char}
    (hw : WholeDigits w) (hstops : Stops Char.isDigit afterWhole)
    (hfraction : fractionPart afterWhole = (f, after))
    (hexponent : exponentPart after = (exponent?, rest)) :
    readNumber ((if negative then ['-'] else []) ++ (w ++ afterWhole)) =
      if f.isEmpty && exponent?.isNone then
        if Text.maxIntegerDigits < w.length then .error (.tooManyDigits w.length)
        else .ok (.int (if negative then -(Text.digitsValue w : Int) else Text.digitsValue w), rest)
      else .ok (.float (.ofDecimal ⟨negative, Text.digitsValue (w ++ f),
        exponent?.getD 0 - f.length⟩), rest) := by
  have hwhole := wholePart_append hw hstops
  obtain ⟨c, tail, rfl⟩ := List.exists_cons_of_ne_nil hw.ne_nil
  have hc : c ≠ '-' := Text.ne_of_isDigit (hw.isDigit c List.mem_cons_self) rfl
  have hempty : (c :: tail).isEmpty = false := rfl
  unfold readNumber
  cases negative with
  | true =>
    simp only [if_true, List.singleton_append, hwhole, hfraction, hexponent, hempty]
    rfl
  | false =>
    simp only [Bool.false_eq_true, if_false, List.nil_append]
    split
    · rename_i heq
      exact absurd (List.cons.inj heq).1 hc
    · simp only [hwhole, hfraction, hexponent, hempty, Bool.false_eq_true, if_false]

/-- A written integer reads back. -/
theorem readNumber_toString {n : Int}
    (hn : (Nat.toDigits 10 n.natAbs).length ≤ Text.maxIntegerDigits)
    (hrest : Stops isNumberPart rest) :
    readNumber ((toString n).toList ++ rest) = .ok (.int n, rest) := by
  have hpoint : Stops (· = '.') rest := by
    intro c hc
    have := hrest c hc
    simp only [isNumberPart, Bool.or_eq_false_iff] at this
    exact this.1.1.2
  have hsign : (if n < 0 then ['-'] else []) = if decide (n < 0) then ['-'] else [] := by
    simp
  rw [Text.toList_toString_int, List.append_assoc, hsign,
    readNumber_of_parts (wholeDigits_toDigits n.natAbs) (stops_isDigit hrest)
      (fractionPart_of_stops hpoint) (exponentPart_of_stops hrest),
    List.isEmpty_nil, Option.isNone_none, Bool.and_true, if_pos rfl, if_neg (Nat.not_lt.2 hn),
    Text.digitsValue_toDigits]
  by_cases h : n < 0
  · simp only [h, decide_true, if_true]
    rw [show -(n.natAbs : Int) = n by omega]
  · simp only [h, decide_false, Bool.false_eq_true, if_false]
    rw [show (n.natAbs : Int) = n by omega]

/-- A text has digits on both sides of a point, and these stand for the magnitude of a decimal. -/
structure Pointed (d : Decimal) (t w f : List Char) : Prop where
  text_eq : t = w ++ '.' :: f
  whole : WholeDigits w
  fraction_ne_nil : f ≠ []
  fraction_isDigit : ∀ c ∈ f, c.isDigit = true
  magnitude_eq : (⟨d.negative, Text.digitsValue (w ++ f), 0 - f.length⟩ : Decimal).magnitude =
    d.magnitude

section Positional

variable {digits : List Char} {n : Nat} (hd : WholeDigits digits)
  (hn : Text.digitsValue digits = n) (negative : Bool)

include hd hn

/-- The digits of a small number stand behind zeros. -/
theorem exists_pointed_of_neg {leading : Int} (hleading : leading < 0) :
    ∃ w f, Pointed ⟨negative, n, leading + 1 - digits.length⟩
      (Layout.positional digits leading) w f := by
  refine ⟨['0'], List.replicate (-leading - 1).toNat '0' ++ digits, ?_, wholeDigits_singleton rfl,
    by simp [hd.ne_nil], ?_, ?_⟩
  · rw [Layout.positional, if_pos hleading]
    rfl
  · exact fun c hc => (List.mem_append.1 hc).elim Text.isDigit_of_mem_zeros (hd.isDigit c)
  · have hlength : ((List.replicate (-leading - 1).toNat '0' ++ digits).length : Int) =
        -leading - 1 + digits.length := by
      simp
      omega
    have hcoefficient : Text.digitsValue
        (['0'] ++ (List.replicate (-leading - 1).toNat '0' ++ digits)) = n := by
      rw [← List.replicate_one, Text.digitsValue_zeros_append, Text.digitsValue_zeros_append, hn]
    rw [hcoefficient, hlength, show 0 - (-leading - 1 + digits.length : Int) =
      leading + 1 - digits.length by omega]

/-- The point stands between the digits, if there are enough of them. -/
theorem exists_pointed_of_lt {k : Nat} (hk : k + 1 < digits.length) :
    ∃ w f, Pointed ⟨negative, n, k + 1 - digits.length⟩ (Layout.positional digits k) w f := by
  have hrest : digits.drop (k + 1) ≠ [] := by simpa using hk
  refine ⟨digits.take (k + 1), digits.drop (k + 1), ?_, ⟨?_, ?_, ?_⟩, hrest, ?_, ?_⟩
  · simp [Layout.positional, Nat.sub_eq_zero_of_le hk.le, hrest]
  · simp [hd.ne_nil]
  · exact fun c hc => hd.isDigit c (List.mem_of_mem_take hc)
  · intro h
    rw [List.head?_take] at h
    have hzero := hd.eq_of_head? (by simpa using h)
    simp [hzero] at hk
  · exact fun c hc => hd.isDigit c (List.mem_of_mem_drop hc)
  · rw [List.take_append_drop, hn, List.length_drop,
      show 0 - ((digits.length - (k + 1) : Nat) : Int) = (k : Int) + 1 - digits.length by omega]

/-- The digits of a large number stand in front of zeros. -/
theorem exists_pointed_of_le {k : Nat} (hz : n = 0 → k = 0) (hk : digits.length ≤ k + 1) :
    ∃ w f, Pointed ⟨negative, n, k + 1 - digits.length⟩ (Layout.positional digits k) w f := by
  have hrest : digits.drop (k + 1) = [] := List.drop_eq_nil_of_le hk
  refine ⟨digits ++ List.replicate (k + 1 - digits.length) '0', ['0'], ?_, ⟨?_, ?_, ?_⟩, by simp,
    by simp, ?_⟩
  · simp [Layout.positional, hrest, List.take_of_length_le hk]
  · simp [hd.ne_nil]
  · exact fun c hc => (List.mem_append.1 hc).elim (hd.isDigit c) Text.isDigit_of_mem_zeros
  · intro h
    have hzero := hd.eq_of_head? (by rwa [List.head?_append_of_ne_nil _ hd.ne_nil] at h)
    have hk : k = 0 := hz (by rw [← hn, hzero]; rfl)
    simp [hzero, hk]
  · have hcoefficient : Text.digitsValue
        (digits ++ List.replicate (k + 1 - digits.length) '0' ++ ['0']) =
          n * 10 ^ (k + 1 - digits.length) * 10 := by
      rw [← List.replicate_one, Text.digitsValue_append_zeros, Text.digitsValue_append_zeros, hn,
        pow_one]
    obtain ⟨j, hj⟩ := Nat.exists_eq_add_of_le hk
    have hexponent : (k : Int) + 1 - digits.length = j := by omega
    rw [hcoefficient, hexponent, show k + 1 - digits.length = j by omega]
    simp [Decimal.magnitude, mul_assoc]

/-- What is written positionally has digits on both sides of the point. -/
theorem exists_pointed {leading : Int} (hz : n = 0 → leading = 0) :
    ∃ w f, Pointed ⟨negative, n, leading + 1 - digits.length⟩
      (Layout.positional digits leading) w f := by
  rcases lt_or_ge leading 0 with hlt | hge
  · exact exists_pointed_of_neg hd hn negative hlt
  · obtain ⟨k, rfl⟩ := Int.eq_ofNat_of_zero_le hge
    rcases Nat.lt_or_ge (k + 1) digits.length with hlt | hge
    · exact exists_pointed_of_lt hd hn negative hlt
    · exact exists_pointed_of_le hd hn negative (fun h => by simpa using hz h) hge

end Positional

/-- The parts of a number that is written with an exponent. -/
theorem scientific_parts (width n : Nat) (leading : Int) (negative : Bool) :
    ∃ w f e, Layout.scientific width (Nat.toDigits 10 n) leading =
        w ++ (if f.isEmpty then [] else '.' :: f) ++
          'e' :: (if decide (leading < 0) then '-' else '+') :: e ∧
      WholeDigits w ∧ (∀ c ∈ f, c.isDigit = true) ∧
      (e ≠ [] ∧ (∀ c ∈ e, c.isDigit = true) ∧ Text.digitsValue e = leading.natAbs) ∧
      (⟨negative, Text.digitsValue (w ++ f), leading - f.length⟩ : Decimal) =
        ⟨negative, n, leading + 1 - (Nat.toDigits 10 n).length⟩ := by
  have hdigits := (wholeDigits_toDigits n).isDigit
  have hvalue := Text.digitsValue_toDigits n
  obtain ⟨d, r, hd⟩ := List.exists_cons_of_ne_nil (wholeDigits_toDigits n).ne_nil
  rw [hd] at hdigits hvalue ⊢
  have hexponent := (wholeDigits_toDigits leading.natAbs).isDigit
  refine ⟨[d], r, List.replicate (width - (Nat.toDigits 10 leading.natAbs).length) '0' ++
    Nat.toDigits 10 leading.natAbs, ?_, wholeDigits_singleton (hdigits d List.mem_cons_self), ?_,
    ⟨by simp, ?_, by simp⟩, ?_⟩
  · cases r <;> simp [Layout.scientific]
  · exact fun c hc => hdigits c (List.mem_cons_of_mem _ hc)
  · exact fun c hc => (List.mem_append.1 hc).elim Text.isDigit_of_mem_zeros (hexponent c)
  · rw [List.singleton_append, hvalue, List.length_cons]
    congr 1
    omega

theorem readNumber_positional {n : Nat} {leading : Int} (hz : n = 0 → leading = 0)
    (negative : Bool) (hrest : Stops isNumberPart rest) :
    readNumber ((if negative then ['-'] else []) ++
        (Layout.positional (Nat.toDigits 10 n) leading ++ rest)) =
      .ok (.float (.ofDecimal ⟨negative, n, leading + 1 - (Nat.toDigits 10 n).length⟩), rest) := by
  obtain ⟨w, f, h⟩ :=
    exists_pointed (wholeDigits_toDigits n) (Text.digitsValue_toDigits n) negative hz
  have hempty : f.isEmpty = false := by simpa using h.fraction_ne_nil
  rw [h.text_eq, List.append_assoc, List.cons_append,
    readNumber_of_parts h.whole (Text.stops_cons.2 rfl)
      (fractionPart_point h.fraction_ne_nil h.fraction_isDigit (stops_isDigit hrest))
      (exponentPart_of_stops hrest),
    hempty, Bool.false_and, if_neg Bool.false_ne_true, Option.getD_none]
  rw [Binary64.ofDecimal_congr (by rfl) h.magnitude_eq]

theorem readNumber_scientific (width n : Nat) (leading : Int) (negative : Bool)
    (hrest : Stops isNumberPart rest) :
    readNumber ((if negative then ['-'] else []) ++
        (Layout.scientific width (Nat.toDigits 10 n) leading ++ rest)) =
      .ok (.float (.ofDecimal ⟨negative, n, leading + 1 - (Nat.toDigits 10 n).length⟩), rest) := by
  obtain ⟨w, f, e, htext, hw, hfd, ⟨he, hed, hevalue⟩, hequal⟩ :=
    scientific_parts width n leading negative
  have hexponent := exponentPart_append (decide (leading < 0)) he hed
    (stops_isDigit hrest)
  have hleading : (if decide (leading < 0) then -(Text.digitsValue e : Int)
      else Text.digitsValue e) = leading := by
    simp only [hevalue, decide_eq_true_eq]
    split <;> omega
  rw [hleading] at hexponent
  have hfraction : fractionPart ((if f.isEmpty then [] else '.' :: f) ++
      'e' :: (if decide (leading < 0) then '-' else '+') :: (e ++ rest)) =
      (f, 'e' :: (if decide (leading < 0) then '-' else '+') :: (e ++ rest)) := by
    cases f with
    | nil => exact fractionPart_of_stops (Text.stops_cons.2 rfl)
    | cons c f => exact fractionPart_point (List.cons_ne_nil c f) hfd (Text.stops_cons.2 rfl)
  have hwhole : Stops Char.isDigit ((if f.isEmpty then [] else '.' :: f) ++
      'e' :: (if decide (leading < 0) then '-' else '+') :: (e ++ rest)) := by
    cases f <;> exact Text.stops_cons.2 rfl
  rw [htext, List.append_assoc, List.append_assoc, List.cons_append, List.cons_append,
    readNumber_of_parts hw hwhole hfraction hexponent,
    Option.isNone_some, Bool.and_false, if_neg Bool.false_ne_true, Option.getD_some, hequal]

/-- A written decimal is read as its number. -/
theorem readNumber_decimalText (layout : Layout) {d : Decimal}
    (hz : d.coefficient = 0 → d.exponent = 0) (hrest : Stops isNumberPart rest) :
    readNumber (layout.decimalText d ++ rest) = .ok (.float (.ofDecimal d), rest) := by
  obtain ⟨negative, n, exponent⟩ := d
  have hsign : ∀ m : List Char, (if negative then '-' :: m else m) ++ rest =
      (if negative then ['-'] else []) ++ (m ++ rest) := by
    cases negative <;> simp
  have hexponent : exponent + (Nat.toDigits 10 n).length - 1 + 1 - (Nat.toDigits 10 n).length =
      exponent := by
    omega
  have hleading : n = 0 → exponent + (Nat.toDigits 10 n).length - 1 = 0 := by
    rintro rfl
    rw [show exponent = 0 from hz rfl]
    rfl
  unfold Layout.decimalText
  simp only [hsign]
  by_cases hlayout : layout.leastPositional ≤ exponent + (Nat.toDigits 10 n).length - 1 ∧
      exponent + (Nat.toDigits 10 n).length - 1 ≤ layout.greatestPositional
  · rw [if_pos hlayout, readNumber_positional hleading negative hrest, hexponent]
  · rw [if_neg hlayout, readNumber_scientific _ _ _ negative hrest, hexponent]

/-- A written finite number reads back. -/
theorem readNumber_text (layout : Layout) {x : Binary64} (hx : x.isFinite = true)
    (hrest : Stops isNumberPart rest) :
    readNumber ((layout.text x).toList ++ rest) = .ok (.float x, rest) := by
  cases x with
  | nan | infinite => cases hx
  | finite negative mantissa exponent hc =>
    have htrimmed : ∀ d : Decimal, d =
        (Binary64.finite negative mantissa exponent hc).shortest negative mantissa exponent →
          d.coefficient = 0 → d.exponent = 0 := by
      rintro d rfl
      unfold Binary64.shortest
      split
      · exact fun _ => rfl
      · exact Decimal.exponent_trimmed _
    rw [Layout.text, String.toList_ofList, readNumber_decimalText layout (htrimmed _ rfl) hrest,
      Binary64.ofDecimal_shortest]

/-! ## How numbers begin -/

/-- The texts of numbers begin with a digit or with a minus sign in front of one. -/
def OpensNumber (t : List Char) : Prop :=
  ∃ (negative : Bool) (c : Char) (rest : List Char), c.isDigit = true ∧
    t = (if negative then ['-'] else []) ++ c :: rest

theorem opensNumber_toString (n : Int) : OpensNumber (toString n).toList := by
  obtain ⟨c, rest, hc⟩ :=
    List.exists_cons_of_ne_nil (Nat.toDigits_ne_nil (n := n.natAbs) (b := 10))
  refine ⟨decide (n < 0), c, rest, ?_, ?_⟩
  · exact Text.isDigit_of_mem_toDigits (hc ▸ List.mem_cons_self)
  · rw [Text.toList_toString_int, hc]
    simp

theorem opensNumber_decimalText (layout : Layout) (d : Decimal) :
    OpensNumber (layout.decimalText d) := by
  obtain ⟨c, tail, hc⟩ :=
    List.exists_cons_of_ne_nil (Nat.toDigits_ne_nil (n := d.coefficient) (b := 10))
  have hdigit : c.isDigit = true := Text.isDigit_of_mem_toDigits (hc ▸ List.mem_cons_self)
  have hmagnitude : ∀ leading : Int, ∃ c' rest, c'.isDigit = true ∧
      (if layout.leastPositional ≤ leading ∧ leading ≤ layout.greatestPositional then
        Layout.positional (c :: tail) leading
      else Layout.scientific layout.exponentWidth (c :: tail) leading) = c' :: rest := by
    intro leading
    split
    · unfold Layout.positional
      split
      · exact ⟨'0', _, rfl, rfl⟩
      · exact ⟨c, _, hdigit, rfl⟩
    · cases tail with
      | nil => exact ⟨c, _, hdigit, rfl⟩
      | cons => exact ⟨c, _, hdigit, rfl⟩
  unfold Layout.decimalText
  rw [hc]
  obtain ⟨c', rest, hc', hrest⟩ := hmagnitude (d.exponent + (c :: tail).length - 1)
  refine ⟨d.negative, c', rest, hc', ?_⟩
  simp only [hrest]
  cases d.negative <;> rfl

theorem opensNumber_text (layout : Layout) {x : Binary64} (hx : x.isFinite = true) :
    OpensNumber (layout.text x).toList := by
  cases x with
  | nan | infinite => cases hx
  | finite =>
    rw [Layout.text, String.toList_ofList]
    exact opensNumber_decimalText layout _

end Json

end OperationTools
