import Mathlib.Data.List.Induction
import Mathlib.Data.Nat.Digits.Defs
import WireSchema.Layout.Discriminant
import WireSchema.Proofs.Schema.Reads
import WireSchema.Proofs.Text.Utf8

/-!
# Which discriminants are numbers

The texts that can stand as discriminants fall into five kinds: decimal literals that fit, decimal
literals that do not, those that have too many digits to be read, literals of another base, and all
others. The digits of each base are listed here as characters, and the value of a literal is that of
its digits without the low lines, so that neither depends on how they are recognised and read.
-/

namespace WireSchema

/-! ## Literals -/

/-- A digit, and then digits and low lines. -/
inductive DecimalLiteral : List Char → Prop
  | mk {c : Char} {cs : List Char} : c ∈ "0123456789".toList →
    (∀ d ∈ cs, d ∈ "0123456789_".toList) → DecimalLiteral (c :: cs)

/-- The characters that can stand behind an announcement of a base. -/
def basedChars : List (Char × String) :=
  [('x', "0123456789abcdefABCDEF_"), ('X', "0123456789abcdefABCDEF_"), ('o', "01234567_"),
    ('O', "01234567_"), ('b', "01_"), ('B', "01_")]

/-- An announcement of a base, and then at least one digit of the base or low line. -/
inductive BasedLiteral : List Char → Prop
  | mk {mark : Char} {chars : String} {cs : List Char} : (mark, chars) ∈ basedChars → cs ≠ [] →
    (∀ d ∈ cs, d ∈ chars.toList) → BasedLiteral ('0' :: mark :: cs)

/-- The number whose decimal digits these are, the low lines left out. -/
def literalValue (cs : List Char) : Nat :=
  Nat.ofDigits 10 ((cs.filter (· ≠ '_')).reverse.map "0123456789".toList.idxOf)

/-- How many digits there are, leading zeros among them. -/
def literalLength (cs : List Char) : Nat := (cs.filter (· ≠ '_')).length

/-! ## Digits -/

/-- The characters of a range are those of its code points. -/
theorem mem_chars_iff {cs : List Char} {a n : Nat}
    (hcs : cs = (List.range' a n).map Char.ofNat) (hn : a + n ≤ 0xd800) (c : Char) :
    c ∈ cs ↔ a ≤ c.toNat ∧ c.toNat < a + n := by
  rw [hcs, List.mem_map]
  constructor
  · rintro ⟨m, hm, rfl⟩
    rw [List.mem_range'_1] at hm
    rwa [Text.toNat_ofNat_of_valid (.inl (by omega))]
  · intro h
    exact ⟨c.toNat, List.mem_range'_1.2 h, Char.ofNat_toNat c⟩

theorem isDigit_iff (c : Char) : c.isDigit = true ↔ c ∈ "0123456789".toList := by
  have hrange : c.isDigit = true ↔ 48 ≤ c.toNat ∧ c.toNat ≤ 57 := by
    rw [Char.isDigit, Bool.and_eq_true, decide_eq_true_eq, decide_eq_true_eq]
    exact Iff.rfl
  rw [hrange, mem_chars_iff (a := 48) (n := 10) (by decide) (by decide)]
  omega

/-- Digits by their code points. -/
theorem isDigitOf_iff (base : Nat) (c : Char) : Text.isDigitOf base c = true ↔
    (48 ≤ c.toNat ∧ c.toNat ≤ 57 ∧ c.toNat < 48 + base) ∨
      (97 ≤ c.toNat ∧ c.toNat ≤ 102 ∧ c.toNat < 87 + base) ∨
        (65 ≤ c.toNat ∧ c.toNat ≤ 70 ∧ c.toNat < 55 + base) := by
  have hdigit : ('0' ≤ c ∧ c ≤ '9') ↔ 48 ≤ c.toNat ∧ c.toNat ≤ 57 := Iff.rfl
  have hlower : ('a' ≤ c ∧ c ≤ 'f') ↔ 97 ≤ c.toNat ∧ c.toNat ≤ 102 := Iff.rfl
  have hupper : ('A' ≤ c ∧ c ≤ 'F') ↔ 65 ≤ c.toNat ∧ c.toNat ≤ 70 := Iff.rfl
  simp only [Text.isDigitOf, Text.digit?, hdigit, hlower, hupper]
  split_ifs with h₁ h₂ h₃
  · rw [decide_eq_true_eq]
    omega
  · rw [decide_eq_true_eq]
    omega
  · rw [decide_eq_true_eq]
    omega
  · simp only [false_iff]
    omega

theorem isDigitOf_two (c : Char) : Text.isDigitOf 2 c = true ↔ c ∈ "01".toList := by
  rw [isDigitOf_iff, mem_chars_iff (a := 48) (n := 2) (by decide) (by decide)]
  omega

theorem isDigitOf_eight (c : Char) : Text.isDigitOf 8 c = true ↔ c ∈ "01234567".toList := by
  rw [isDigitOf_iff, mem_chars_iff (a := 48) (n := 8) (by decide) (by decide)]
  omega

theorem isDigitOf_sixteen (c : Char) :
    Text.isDigitOf 16 c = true ↔ c ∈ "0123456789abcdefABCDEF".toList := by
  have hchars : "0123456789abcdefABCDEF".toList =
      "0123456789".toList ++ ("abcdef".toList ++ "ABCDEF".toList) := by decide
  rw [isDigitOf_iff, hchars, List.mem_append, List.mem_append,
    mem_chars_iff (a := 48) (n := 10) (by decide) (by decide),
    mem_chars_iff (a := 97) (n := 6) (by decide) (by decide),
    mem_chars_iff (a := 65) (n := 6) (by decide) (by decide)]
  omega

/-- With low lines among them. -/
theorem or_lowLine_iff {p : Char → Bool} {digits chars : String}
    (h : ∀ c, p c = true ↔ c ∈ digits.toList) (hchars : chars.toList = digits.toList ++ ['_'])
    (c : Char) : (p c || c = '_') = true ↔ c ∈ chars.toList := by
  rw [hchars, List.mem_append, List.mem_singleton, Bool.or_eq_true, h, decide_eq_true_eq]

theorem isDigit_or_lowLine_iff (c : Char) :
    (c.isDigit || c = '_') = true ↔ c ∈ "0123456789_".toList :=
  or_lowLine_iff isDigit_iff (by decide) c

theorem digit?_of_mem {c : Char} (h : c ∈ "0123456789".toList) :
    Text.digit? c = some ("0123456789".toList.idxOf c) := by
  have hall : "0123456789".toList.all
      (fun c => Text.digit? c = some ("0123456789".toList.idxOf c)) = true := by decide
  exact of_decide_eq_true (List.all_eq_true.1 hall c h)

/-! ## Recognising literals -/

theorem isDecimalLiteral_iff {cs : List Char} :
    isDecimalLiteral cs = true ↔ DecimalLiteral cs := by
  cases cs with
  | nil => exact ⟨nofun, nofun⟩
  | cons c cs =>
    rw [isDecimalLiteral, Bool.and_eq_true, isDigit_iff, List.all_eq_true]
    constructor
    · rintro ⟨hc, hcs⟩
      exact .mk hc fun d hd => (isDigit_or_lowLine_iff d).1 (hcs d hd)
    · rintro ⟨hc, hcs⟩
      exact ⟨hc, fun d hd => (isDigit_or_lowLine_iff d).2 (hcs d hd)⟩

theorem isDigit_of_mem_filter {cs : List Char} (h : DecimalLiteral cs) :
    ∀ c ∈ cs.filter (· ≠ '_'), c ∈ "0123456789".toList := by
  intro c hc
  obtain ⟨hmem, hline⟩ := List.mem_filter.1 hc
  obtain ⟨hhead, htail⟩ := h
  rcases List.mem_cons.1 hmem with rfl | hmem
  · exact hhead
  · have hdigit := (isDigit_or_lowLine_iff c).2 (htail c hmem)
    rw [Bool.or_eq_true] at hdigit
    exact (isDigit_iff c).1 (hdigit.resolve_right (by simpa using hline))

/-- The digits are read from the front, each one shifting those in front of it. -/
theorem ofDigits_eq {ds : List Char} (h : ∀ c ∈ ds, c ∈ "0123456789".toList) :
    Text.ofDigits 10 ds = Nat.ofDigits 10 (ds.reverse.map "0123456789".toList.idxOf) := by
  induction ds using List.reverseRecOn with
  | nil => rfl
  | append_singleton ds c ih =>
    have hds := ih fun d hd => h d (List.mem_append_left _ hd)
    have hc := digit?_of_mem (h c (List.mem_append_right _ (.head _)))
    rw [Text.ofDigits_concat, hc, hds, List.reverse_append, List.reverse_singleton,
      List.singleton_append, List.map_cons, Nat.ofDigits_cons, Option.getD_some, Nat.mul_comm,
      Nat.add_comm]

theorem decimalValue_eq {cs : List Char} (h : DecimalLiteral cs) :
    decimalValue cs = literalValue cs :=
  ofDigits_eq (isDigit_of_mem_filter h)

/-- Each announcement goes with the characters of its base. -/
theorem exists_announcedBase? {mark : Char} {chars : String} (h : (mark, chars) ∈ basedChars)
    (cs : List Char) : ∃ base, announcedBase? ('0' :: mark :: cs) = some base ∧
      ∀ c, (Text.isDigitOf base c || c = '_') = true ↔ c ∈ chars.toList := by
  simp only [basedChars, List.mem_cons, Prod.mk.injEq, List.not_mem_nil, or_false] at h
  rcases h with ⟨rfl, rfl⟩ | ⟨rfl, rfl⟩ | ⟨rfl, rfl⟩ | ⟨rfl, rfl⟩ | ⟨rfl, rfl⟩ | ⟨rfl, rfl⟩
  · exact ⟨16, rfl, or_lowLine_iff isDigitOf_sixteen (by decide)⟩
  · exact ⟨16, rfl, or_lowLine_iff isDigitOf_sixteen (by decide)⟩
  · exact ⟨8, rfl, or_lowLine_iff isDigitOf_eight (by decide)⟩
  · exact ⟨8, rfl, or_lowLine_iff isDigitOf_eight (by decide)⟩
  · exact ⟨2, rfl, or_lowLine_iff isDigitOf_two (by decide)⟩
  · exact ⟨2, rfl, or_lowLine_iff isDigitOf_two (by decide)⟩

theorem exists_of_announcedBase? {cs : List Char} {base : Nat}
    (h : announcedBase? cs = some base) :
    ∃ mark chars rest, cs = '0' :: mark :: rest ∧ (mark, chars) ∈ basedChars := by
  unfold announcedBase? at h
  split at h
  next mark rest =>
    have hmark : mark ∈ basedChars.map Prod.fst := by
      split_ifs at h with h₁ h₂ h₃
      · rcases h₁ with rfl | rfl <;> decide
      · rcases h₂ with rfl | rfl <;> decide
      · rcases h₃ with rfl | rfl <;> decide
    obtain ⟨⟨_, chars⟩, hmem, rfl⟩ := List.mem_map.1 hmark
    exact ⟨_, chars, rest, rfl, hmem⟩
  next => cases h

theorem isBasedLiteral_iff {cs : List Char} : isBasedLiteral cs = true ↔ BasedLiteral cs := by
  constructor
  · intro h
    cases hbase : announcedBase? cs with
    | none =>
      rw [isBasedLiteral, hbase] at h
      cases h
    | some base =>
      obtain ⟨mark, chars, rest, rfl, hmem⟩ := exists_of_announcedBase? hbase
      obtain ⟨_, hbase', hchars⟩ := exists_announcedBase? hmem rest
      cases hbase.symm.trans hbase'
      simp only [isBasedLiteral, hbase, List.drop_succ_cons, List.drop_zero, Bool.and_eq_true,
        List.all_eq_true, Bool.not_eq_true', List.isEmpty_eq_false_iff] at h
      exact .mk hmem h.1 fun d hd => (hchars d).1 (h.2 d hd)
  · rintro @⟨mark, chars, rest, hmem, hne, hrest⟩
    obtain ⟨base, hbase, hchars⟩ := exists_announcedBase? hmem rest
    simp only [isBasedLiteral, hbase, List.drop_succ_cons, List.drop_zero, Bool.and_eq_true,
      List.all_eq_true, Bool.not_eq_true', List.isEmpty_eq_false_iff]
    exact ⟨hne, fun d hd => (hchars d).2 (hrest d hd)⟩

/-- No announcement is in the characters of decimal literals. -/
theorem DecimalLiteral.not_basedLiteral {cs : List Char} (h : DecimalLiteral cs) :
    ¬ BasedLiteral cs := by
  rintro ⟨hmem, -, -⟩
  obtain ⟨-, htail⟩ := h
  have hmark := htail _ (.head _)
  have hall : ∀ p ∈ basedChars, p.1 ∉ "0123456789_".toList := by decide
  exact hall _ hmem hmark

/-! ## Discriminants -/

/-- What stands as a discriminant has no line feed. -/
theorem withoutFinalNewline_of_discriminant {s t : Cursor} {text : String}
    (h : Reader.discriminant s = .ok (text, t)) :
    withoutFinalNewline text.toList = text.toList := by
  obtain ⟨⟨text, l⟩, _, ⟨u, -, hstretch⟩, rfl, rfl⟩ := Reader.reads_discriminant.sound h
  rw [withoutFinalNewline, if_neg]
  intro hlast
  have hchar := hstretch.within '\n' (List.mem_of_getLast? hlast)
  exact absurd hchar (by decide)

/-- Every text of characters of discriminants stands as one. -/
theorem discriminant_of_forall {text : String} (hne : text.toList ≠ [])
    (h : ∀ c ∈ text.toList, isDiscriminantChar c) :
    ∃ t, Reader.discriminant (.ofString text) = .ok (text, t) := by
  let t : Cursor := ⟨[], Location.start.advance text.toList⟩
  have hstretch : Rule.Stretch isDiscriminantChar isDiscriminantChar (.ofString text)
      (text, .start) t :=
    { covers := ⟨(List.append_nil _).symm, rfl⟩
      location := rfl
      nonempty := hne
      starts := fun c hc => h c (List.mem_of_head? hc)
      within := h
      longest := nofun }
  exact ⟨t, Reader.reads_discriminant.complete
    ⟨(text, .start), t, ⟨_, .nil _, hstretch⟩, rfl, rfl⟩ trivial⟩

section

variable {text : String} (hend : withoutFinalNewline text.toList = text.toList) (l : Location)
include hend

theorem readDiscriminant_of_long (h : DecimalLiteral text.toList)
    (hlong : 4300 < literalLength text.toList) :
    readDiscriminant text l = .error ⟨.discriminantTooLong, l⟩ := by
  simp only [readDiscriminant, hend]
  rw [if_pos (isDecimalLiteral_iff.2 h),
    if_pos (c := Text.maxDigits < (decimalDigits text.toList).length) hlong]
  rfl

theorem readDiscriminant_of_decimal (h : DecimalLiteral text.toList)
    (hshort : literalLength text.toList ≤ 4300) :
    readDiscriminant text l =
      if literalValue text.toList ≤ maxTagValue then .ok (literalValue text.toList)
      else .error ⟨.discriminantTooLarge, l⟩ := by
  simp only [readDiscriminant, hend]
  rw [if_pos (isDecimalLiteral_iff.2 h),
    if_neg (c := Text.maxDigits < (decimalDigits text.toList).length) (Nat.not_lt.2 hshort),
    decimalValue_eq h]
  rfl

theorem readDiscriminant_of_based (h : BasedLiteral text.toList) :
    readDiscriminant text l = .error ⟨.discriminantNotDecimal, l⟩ := by
  have hdecimal : ¬ isDecimalLiteral text.toList = true := fun hd =>
    (isDecimalLiteral_iff.1 hd).not_basedLiteral h
  simp only [readDiscriminant, hend]
  rw [if_neg hdecimal, if_pos (isBasedLiteral_iff.2 h)]
  rfl

theorem readDiscriminant_of_neither (hdecimal : ¬ DecimalLiteral text.toList)
    (hbased : ¬ BasedLiteral text.toList) :
    readDiscriminant text l = .error ⟨.discriminantNotInteger, l⟩ := by
  simp only [readDiscriminant, hend]
  rw [if_neg (mt isDecimalLiteral_iff.1 hdecimal), if_neg (mt isBasedLiteral_iff.1 hbased)]
  rfl

end

/-- A discriminant is read as a number just if it is a decimal literal that fits and is not too long,
and which fault is found in any other tells of which kind it is. -/
theorem readDiscriminant_exact {s t : Cursor} {text : String}
    (h : Reader.discriminant s = .ok (text, t)) (l : Location) :
    (∀ n, readDiscriminant text l = .ok n ↔ DecimalLiteral text.toList ∧
      literalLength text.toList ≤ 4300 ∧ n = literalValue text.toList ∧ n ≤ 2 ^ 128 - 1) ∧
    (readDiscriminant text l = .error ⟨.discriminantTooLarge, l⟩ ↔
      DecimalLiteral text.toList ∧ literalLength text.toList ≤ 4300 ∧
        2 ^ 128 - 1 < literalValue text.toList) ∧
    (readDiscriminant text l = .error ⟨.discriminantTooLong, l⟩ ↔
      DecimalLiteral text.toList ∧ 4300 < literalLength text.toList) ∧
    (readDiscriminant text l = .error ⟨.discriminantNotDecimal, l⟩ ↔
      BasedLiteral text.toList) ∧
    (readDiscriminant text l = .error ⟨.discriminantNotInteger, l⟩ ↔
      ¬ DecimalLiteral text.toList ∧ ¬ BasedLiteral text.toList) := by
  have hend := withoutFinalNewline_of_discriminant h
  have hmax : 2 ^ 128 - 1 = maxTagValue := rfl
  rw [hmax]
  by_cases hdecimal : DecimalLiteral text.toList
  · have hbased := hdecimal.not_basedLiteral
    by_cases hshort : literalLength text.toList ≤ 4300
    · rw [readDiscriminant_of_decimal hend l hdecimal hshort]
      split
      next hle =>
        refine ⟨fun n => ⟨?_, ?_⟩, ⟨nofun, fun hlt => absurd hle (Nat.not_le.2 hlt.2.2)⟩,
          ⟨nofun, fun hlong => absurd hshort (Nat.not_le.2 hlong.2)⟩,
          ⟨nofun, fun hb => absurd hb hbased⟩, ⟨nofun, fun hn => absurd hdecimal hn.1⟩⟩
        · rintro ⟨⟩
          exact ⟨hdecimal, hshort, rfl, hle⟩
        · rintro ⟨-, -, rfl, -⟩
          rfl
      next hlt =>
        refine ⟨fun n => ⟨nofun, ?_⟩,
          ⟨fun _ => ⟨hdecimal, hshort, Nat.lt_of_not_le hlt⟩, fun _ => rfl⟩,
          ⟨nofun, fun hlong => absurd hshort (Nat.not_le.2 hlong.2)⟩,
          ⟨nofun, fun hb => absurd hb hbased⟩, ⟨nofun, fun hn => absurd hdecimal hn.1⟩⟩
        rintro ⟨-, -, rfl, hle⟩
        exact absurd hle hlt
    · have hlong := Nat.lt_of_not_le hshort
      rw [readDiscriminant_of_long hend l hdecimal hlong]
      exact ⟨fun n => ⟨nofun, fun hd => absurd hd.2.1 hshort⟩,
        ⟨nofun, fun hd => absurd hd.2.1 hshort⟩, ⟨fun _ => ⟨hdecimal, hlong⟩, fun _ => rfl⟩,
        ⟨nofun, fun hb => absurd hb hbased⟩, ⟨nofun, fun hn => absurd hdecimal hn.1⟩⟩
  · by_cases hbased : BasedLiteral text.toList
    · rw [readDiscriminant_of_based hend l hbased]
      exact ⟨fun n => ⟨nofun, fun hd => absurd hd.1 hdecimal⟩,
        ⟨nofun, fun hd => absurd hd.1 hdecimal⟩, ⟨nofun, fun hd => absurd hd.1 hdecimal⟩,
        ⟨fun _ => hbased, fun _ => rfl⟩, ⟨nofun, fun hn => absurd hbased hn.2⟩⟩
    · rw [readDiscriminant_of_neither hend l hdecimal hbased]
      exact ⟨fun n => ⟨nofun, fun hd => absurd hd.1 hdecimal⟩,
        ⟨nofun, fun hd => absurd hd.1 hdecimal⟩, ⟨nofun, fun hd => absurd hd.1 hdecimal⟩,
        ⟨nofun, fun hb => absurd hb hbased⟩, ⟨fun _ => ⟨hdecimal, hbased⟩, fun _ => rfl⟩⟩

/-- The largest number that fits, with a zero in front and a low line behind, and the next one. -/
theorem readDiscriminant_exact_of_largest :
    let text := "0340282366920938463463374607431768211455_"
    let text' := "340_282366920938463463374607431768211456"
    let l := Location.start
    (∃ t, Reader.discriminant (.ofString text) = .ok (text, t)) ∧
      (∃ t, Reader.discriminant (.ofString text') = .ok (text', t)) ∧
      readDiscriminant text l = .ok (2 ^ 128 - 1) ∧
      readDiscriminant text' l = .error ⟨.discriminantTooLarge, l⟩ := by
  have hreads : ∀ text ∈ ["0340282366920938463463374607431768211455_",
      "340_282366920938463463374607431768211456"],
      ∃ t, Reader.discriminant (.ofString text) = .ok (text, t) :=
    List.forall_mem_cons.2 ⟨⟨_, rfl⟩, List.forall_mem_singleton.2 ⟨_, rfl⟩⟩
  intro text text' l
  obtain ⟨t, hread⟩ := hreads text (.head _)
  obtain ⟨t', hread'⟩ := hreads text' (.tail _ (.head _))
  have hdecimal : DecimalLiteral text.toList := isDecimalLiteral_iff.1 (by decide)
  have hdecimal' : DecimalLiteral text'.toList := isDecimalLiteral_iff.1 (by decide)
  exact ⟨⟨t, hread⟩, ⟨t', hread'⟩,
    ((readDiscriminant_exact hread l).1 _).2
      ⟨hdecimal, by decide, by decide +kernel, le_refl _⟩,
    (readDiscriminant_exact hread' l).2.1.2 ⟨hdecimal', by decide, by decide +kernel⟩⟩

/-- A digit over and over stands as a discriminant, and is not read if it is there too often. -/
theorem readDiscriminant_replicate {c : Char} (hc : c ∈ "0123456789".toList) {n : Nat}
    (hn : 4300 ≤ n) (l : Location) :
    let text := String.ofList (List.replicate (n + 1) c)
    DecimalLiteral text.toList ∧ (∃ t, Reader.discriminant (.ofString text) = .ok (text, t)) ∧
      readDiscriminant text l = .error ⟨.discriminantTooLong, l⟩ := by
  intro text
  have hdigits : "0123456789".toList.all (fun c =>
      c ∈ "0123456789_".toList ∧ c ≠ '_' ∧ isDiscriminantChar c = true) = true := by decide
  obtain ⟨hmem, hline, hchar⟩ := of_decide_eq_true (List.all_eq_true.1 hdigits c hc)
  have hchars : text.toList = List.replicate (n + 1) c := String.toList_ofList
  have hall : ∀ d ∈ text.toList, d = c := fun d hd => List.eq_of_mem_replicate (hchars ▸ hd)
  have hdecimal : DecimalLiteral text.toList := by
    rw [hchars]
    exact .mk hc fun d hd => List.eq_of_mem_replicate hd ▸ hmem
  have hlength : literalLength text.toList = n + 1 := by
    rw [literalLength, List.filter_eq_self.2 fun d hd => by rw [hall d hd]; simpa using hline,
      hchars, List.length_replicate]
  obtain ⟨t, hread⟩ := discriminant_of_forall (hchars ▸ List.cons_ne_nil _ _)
    fun d hd => hall d hd ▸ hchar
  exact ⟨hdecimal, ⟨t, hread⟩, readDiscriminant_of_long (withoutFinalNewline_of_discriminant hread)
    l hdecimal (by rw [hlength]; omega)⟩

/-- A row of nines that is one digit too long is neither read nor said not to fit. -/
theorem not_read_of_nines :
    let text := String.ofList (List.replicate 4301 '9')
    DecimalLiteral text.toList ∧ (∃ t, Reader.discriminant (.ofString text) = .ok (text, t)) ∧
      readDiscriminant text .start = .error ⟨.discriminantTooLong, .start⟩ :=
  readDiscriminant_replicate (by decide) (le_refl _) _

end WireSchema
