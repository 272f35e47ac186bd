import CampaignControl.Json.Reader
import CampaignControl.Json.Writer
import CampaignControl.Proofs.Keyed
import Mathlib.Data.List.DropRight
import Mathlib.Tactic.IntervalCases

/-!
# Reading what has been written

A document with numbers that are integers of 64 bits is read back from its text, whether it is
written on one line or on several (`Json.read_write`). What is read in front of the rest of a text
does not depend on that rest, as long as the rest does not go on with a number (`Json.Ends`); so
the parts of a text are read one after the other (`Json.ReadsBack`), a container by induction on
its items or fields.

Every second step of a reader takes a character, so twice the length of the text is fuel enough.
-/

namespace CampaignControl
namespace Json

/-! ## Exact documents -/

/-- The number is an integer of 64 bits, signed or unsigned. -/
def Number.IsExact : Number → Prop
  | .whole n => -0x8000000000000000 ≤ n ∧ n < 0x10000000000000000
  | .binary _ => False

mutual

/-- Every number, at any depth, is an integer of 64 bits. -/
def IsExact : Json → Prop
  | .number n => n.IsExact
  | .array items => ItemsAreExact items
  | .object fields => FieldsAreExact fields
  | _ => True
termination_by structural j => j

/-- The numbers in every item are integers of 64 bits. -/
def ItemsAreExact : List Json → Prop
  | [] => True
  | j :: rest => j.IsExact ∧ ItemsAreExact rest
termination_by structural items => items

/-- The numbers in the value of every field are integers of 64 bits. -/
def FieldsAreExact : List (String × Json) → Prop
  | [] => True
  | (_, j) :: rest => j.IsExact ∧ FieldsAreExact rest
termination_by structural fields => fields

end

theorem Number.eq_of_same {a b : Number} (hb : b.IsExact) (h : a.same b) : a = b := by
  cases b with
  | binary => exact hb.elim
  | whole n =>
    cases a with
    | binary => cases h
    | whole m => rw [beq_iff_eq.1 h]

mutual

/-- A document that is the same as an exact one is this one. -/
theorem eq_of_same : (a b : Json) → b.IsExact → a.same b → a = b
  | .null, b, _, h => by cases b <;> first | rfl | cases h
  | .bool _, b, _, h => by
    cases b <;> first | cases h | skip
    rw [beq_iff_eq.1 h]
  | .number _, b, hb, h => by
    cases b <;> first | cases h | skip
    rw [Number.eq_of_same hb h]
  | .string _, b, _, h => by
    cases b <;> first | cases h | skip
    rw [beq_iff_eq.1 h]
  | .array items, b, hb, h => by
    cases b <;> first | cases h | skip
    rw [eq_of_sameItems items _ hb h]
  | .object fields, b, hb, h => by
    cases b <;> first | cases h | skip
    rw [eq_of_sameFields fields _ hb h]

theorem eq_of_sameItems : (as bs : List Json) → ItemsAreExact bs → sameItems as bs → as = bs
  | [], bs, _, h => by cases bs <;> first | rfl | cases h
  | a :: as, bs, hb, h => by
    cases bs with
    | nil => cases h
    | cons b bs =>
      rw [sameItems, Bool.and_eq_true] at h
      rw [eq_of_same a b hb.1 h.1, eq_of_sameItems as bs hb.2 h.2]

theorem eq_of_sameFields : (as bs : List (String × Json)) → FieldsAreExact bs →
    sameFields as bs → as = bs
  | [], bs, _, h => by cases bs <;> first | rfl | cases h
  | (k, a) :: as, bs, hb, h => by
    cases bs with
    | nil => cases h
    | cons e bs =>
      obtain ⟨l, b⟩ := e
      rw [sameFields, Bool.and_eq_true, Bool.and_eq_true] at h
      rw [beq_iff_eq.1 h.1.1, eq_of_same a b hb.1 h.1.2, eq_of_sameFields as bs hb.2 h.2]

end

/-- A document that a text can carry: its objects have ascending keys, its numbers are exact, and
it is not nested deeper than is read. -/
structure IsPortable (j : Json) : Prop where
  canonical : j.Canonical
  exact : j.IsExact
  depth_le : j.depth ≤ maxDepth

/-! ## Numbers -/

/-- What follows a value does not go on with a number. -/
def Ends (rest : List Char) : Prop :=
  ∀ c ∈ rest.head?, c.isDigit = false ∧ c ≠ '.' ∧ c ≠ 'e' ∧ c ≠ 'E'

theorem ends_cons {c : Char} {cs : List Char} (h : c.isDigit = false) (hpoint : c ≠ '.')
    (he : c ≠ 'e') (hE : c ≠ 'E') : Ends (c :: cs) := by
  rintro d ⟨⟩
  exact ⟨h, hpoint, he, hE⟩

/-- The digits of a number other than zero do not start with a zero. -/
theorem head?_toDigits_ne {n : Nat} (h : 0 < n) : (Nat.toDigits 10 n).head? ≠ some '0' := by
  induction n using Nat.strongRecOn with
  | ind n ih =>
    by_cases hn : n < 10
    · rw [Nat.toDigits_of_lt_base hn]
      interval_cases n <;> decide
    · have hhead := ih (n / 10) (by omega) (by omega)
      rw [Nat.toDigits_of_base_le (by decide) (by omega)]
      obtain ⟨c, cs, hcs⟩ :=
        List.exists_cons_of_ne_nil (Nat.toDigits_ne_nil (n := n / 10) (b := 10))
      rwa [hcs] at hhead ⊢

theorem wholePart_toDigits (n : Nat) {rest : List Char} (h : Ends rest) :
    wholePart (Nat.toDigits 10 n ++ rest) = .ok (Nat.toDigits 10 n, rest) := by
  have hd : ∀ c ∈ Nat.toDigits 10 n, c.isDigit = true := fun _ hc =>
    Nat.isDigit_of_mem_toDigits (by decide) (by decide) hc
  have hrest : rest.takeWhile Char.isDigit = [] ∧ rest.dropWhile Char.isDigit = rest := by
    cases rest with
    | nil => simp
    | cons c cs => simp [(h c rfl).1]
  have hne : (Nat.toDigits 10 n).isEmpty = false := by simp
  simp only [wholePart, List.takeWhile_append_of_pos hd, List.dropWhile_append_of_pos hd, hrest,
    List.append_nil, hne, Bool.false_eq_true, if_false]
  have hpos : 1 < (Nat.toDigits 10 n).length → 0 < n := fun hl => by
    by_contra hn
    rw [Nat.eq_zero_of_not_pos hn] at hl
    exact absurd hl (by decide)
  rw [if_neg fun hz => head?_toDigits_ne (hpos hz.1) hz.2]

theorem fractionPart_of_ends {rest : List Char} (h : Ends rest) :
    fractionPart rest = .ok (none, rest) := by
  unfold fractionPart
  split
  · exact absurd rfl (h '.' rfl).2.1
  · rfl

theorem exponentPart_of_ends {rest : List Char} (h : Ends rest) :
    exponentPart rest = .ok (none, rest) := by
  cases rest with
  | nil => rfl
  | cons c cs =>
    obtain ⟨-, -, he, hE⟩ := h c rfl
    simp [exponentPart, he, hE]

theorem numberBody_toDigits {negative : Bool} {n : Nat} {m : Number} {rest : List Char}
    (hm : Literal.number { negative, whole := Nat.toDigits 10 n } = some m) (h : Ends rest) :
    numberBody negative (Nat.toDigits 10 n ++ rest) = .ok (m, rest) := by
  simp only [numberBody, wholePart_toDigits n h, fractionPart_of_ends h, exponentPart_of_ends h,
    bind, Except.bind, hm]

theorem natural_toDigits (n : Nat) : Literal.natural (Nat.toDigits 10 n) = n := by
  rw [Literal.natural]
  exact Nat.ofDigitChars_eq_foldl.symm.trans (Nat.ofDigitChars_toDigits (by decide) (by decide))

theorem number_of_natural {n : Nat} (h : n < 0x10000000000000000) :
    Literal.number { negative := false, whole := Nat.toDigits 10 n } = some (.whole n) := by
  simp [Literal.number, natural_toDigits, h]

theorem number_of_negated {n : Nat} (hpos : 0 < n) (h : n ≤ 0x8000000000000000) :
    Literal.number { negative := true, whole := Nat.toDigits 10 n } = some (.whole (-n)) := by
  simp [Literal.number, natural_toDigits, h, hpos]

/-! ## Strings -/

theorem hexDigit?_hexDigit {n : Nat} (h : n < 16) : hexDigit? (hexDigit n) = some n := by
  interval_cases n <;> decide

theorem unicodeEscape_of_control {c : Char} (h : c.toNat < 0x20) (cs : List Char) :
    unicodeEscape ('0' :: '0' :: hexDigit (c.toNat / 16) :: hexDigit (c.toNat % 16) :: cs) =
      .ok (c, cs) := by
  have hzero : hexDigit? '0' = some 0 := by decide
  have hunit : ((0 * 16 + 0) * 16 + c.toNat / 16) * 16 + c.toNat % 16 = c.toNat := by omega
  have hread : hexUnit ('0' :: '0' :: hexDigit (c.toNat / 16) :: hexDigit (c.toNat % 16) :: cs) =
      .ok (c.toNat, cs) := by
    simp only [hexUnit, hzero, hexDigit?_hexDigit (show c.toNat / 16 < 16 by omega),
      hexDigit?_hexDigit (show c.toNat % 16 < 16 by omega), hunit]
  simp only [unicodeEscape, hread, bind, Except.bind]
  rw [if_neg (by omega), if_pos (.inl (by omega)), Char.ofNat_toNat]

/-- A character is read back from how it is written within a string. -/
theorem stringBody_escaped (fuel : Nat) (acc : List Char) (c : Char) (cs : List Char) :
    stringBody (fuel + 1) acc (escaped c ++ cs) = stringBody fuel (c :: acc) cs := by
  by_cases hquote : c = '"'
  · subst hquote; rfl
  by_cases hslash : c = '\\'
  · subst hslash; rfl
  by_cases hshort : c = '\x08' ∨ c = '\x0c' ∨ c = '\n' ∨ c = '\r' ∨ c = '\t'
  · rcases hshort with rfl | rfl | rfl | rfl | rfl <;> rfl
  simp only [not_or] at hshort
  simp only [escaped, hquote, hslash, hshort, if_false]
  by_cases hcontrol : c.toNat < 0x20
  · rw [if_pos hcontrol]
    show (match unicodeEscape
        ('0' :: '0' :: hexDigit (c.toNat / 16) :: hexDigit (c.toNat % 16) :: cs)
      with
      | .ok (e, cs) => stringBody fuel (e :: acc) cs
      | .error fault => .error fault) = _
    rw [unicodeEscape_of_control hcontrol]
  · rw [if_neg hcontrol]
    simp only [List.singleton_append, stringBody, hquote, hslash, hcontrol, if_false]

theorem stringBody_write {fuel : Nat} (acc cs rest : List Char) (h : cs.length < fuel) :
    stringBody fuel acc (cs.foldr (fun c acc => escaped c ++ acc) ('"' :: rest)) =
      .ok (String.ofList (acc.reverse ++ cs), rest) := by
  induction cs generalizing fuel acc with
  | nil =>
    obtain ⟨fuel, rfl⟩ := Nat.exists_eq_add_of_lt h
    simp [stringBody]
  | cons c cs ih =>
    obtain ⟨fuel, rfl⟩ := Nat.exists_eq_add_of_lt (Nat.zero_lt_of_lt h)
    rw [List.length_cons] at h
    rw [Nat.zero_add, List.foldr_cons, stringBody_escaped, ih _ (by omega)]
    simp

/-! ## Blanks -/

theorem skipBlanks_cons {c : Char} (h : isBlank c = false) (cs : List Char) :
    skipBlanks (c :: cs) = c :: cs := by simp [skipBlanks, h]

theorem skipBlanks_append {blanks : List Char} (h : ∀ c ∈ blanks, isBlank c) (cs : List Char) :
    skipBlanks (blanks ++ cs) = skipBlanks cs := List.dropWhile_append_of_pos h

@[simp] theorem skipBlanks_skipBlanks (cs : List Char) :
    skipBlanks (skipBlanks cs) = skipBlanks cs := List.dropWhile_idempotent ..

@[simp] theorem skipBlanks_newLine (level : Level) (cs : List Char) :
    skipBlanks (newLine level cs) = skipBlanks cs := by
  cases level with
  | none => rfl
  | some n =>
    show skipBlanks (('\n' :: List.replicate (2 * n) ' ') ++ cs) = skipBlanks cs
    refine skipBlanks_append (fun c hc => ?_) cs
    rcases List.mem_cons.1 hc with rfl | hc
    · decide
    · rw [List.eq_of_mem_replicate hc]; decide

theorem value_skipBlanks (fuel depth : Nat) (cs : List Char) :
    value fuel depth (skipBlanks cs) = value fuel depth cs := by
  cases fuel with
  | zero => rfl
  | succ fuel => simp only [value, skipBlanks_skipBlanks]

/-! ## The rest of the text -/

theorem foldr_escaped_append (cs rest more : List Char) :
    cs.foldr (fun c acc => escaped c ++ acc) (rest ++ more) =
      cs.foldr (fun c acc => escaped c ++ acc) rest ++ more := by
  induction cs with
  | nil => rfl
  | cons c cs ih => rw [List.foldr_cons, List.foldr_cons, ih, List.append_assoc]

theorem writeString_append (s : String) (rest more : List Char) :
    writeString s (rest ++ more) = writeString s rest ++ more := by
  rw [writeString, ← List.cons_append, foldr_escaped_append]
  rfl

theorem newLine_append (level : Level) (rest more : List Char) :
    newLine level (rest ++ more) = newLine level rest ++ more := by
  cases level <;> simp [newLine]

theorem colon_append (level : Level) (rest more : List Char) :
    colon level (rest ++ more) = colon level rest ++ more := by
  cases level <;> rfl

theorem length_le_newLine (level : Level) (rest : List Char) :
    rest.length ≤ (newLine level rest).length := by
  cases level <;> simp [newLine]
  omega

theorem length_le_colon (level : Level) (rest : List Char) :
    rest.length ≤ (colon level rest).length := by
  cases level <;> simp [colon]
  omega

mutual

/-- What is written in front of a text does not depend on it. -/
theorem write_append (level : Level) : (j : Json) → (rest more : List Char) →
    write level j (rest ++ more) = write level j rest ++ more
  | .null, _, _ | .bool true, _, _ | .bool false, _, _ | .array [], _, _ | .object [], _, _ => rfl
  | .number _, _, _ => (List.append_assoc ..).symm
  | .string s, rest, more => writeString_append s rest more
  | .array (j :: js), rest, more => by
    simp only [write, ← List.cons_append, newLine_append, writeItems_append _ js, write_append _ j]
  | .object ((k, j) :: fs), rest, more => by
    simp only [write, ← List.cons_append, newLine_append, writeFields_append _ fs,
      write_append _ j, colon_append, writeString_append]

theorem writeItems_append (level : Level) : (js : List Json) → (rest more : List Char) →
    writeItems level js (rest ++ more) = writeItems level js rest ++ more
  | [], _, _ => rfl
  | j :: js, rest, more => by
    simp only [writeItems, ← List.cons_append, newLine_append, writeItems_append level js,
      write_append level j]

theorem writeFields_append (level : Level) : (fs : List (String × Json)) →
    (rest more : List Char) →
    writeFields level fs (rest ++ more) = writeFields level fs rest ++ more
  | [], _, _ => rfl
  | (k, j) :: fs, rest, more => by
    simp only [writeFields, ← List.cons_append, newLine_append, writeFields_append level fs,
      write_append level j, colon_append, writeString_append]

end

/-! ## Values -/

/-- The value is read back in front of every text that does not go on with a number. What is
written for it starts neither with a blank nor with the end of an array, from which the reader
tells that there is a value at all. -/
structure ReadsBack (j : Json) : Prop where
  starts : ∀ level rest, ∃ c cs, write level j rest = c :: cs ∧ isBlank c = false ∧ c ≠ ']'
  value_write : ∀ level fuel {depth rest}, j.depth ≤ depth → Ends rest →
    2 * (write level j rest).length ≤ fuel → value fuel depth (write level j rest) = .ok (j, rest)

namespace ReadsBack

variable {j : Json}

theorem skipBlanks_write (h : ReadsBack j) (level : Level) (rest : List Char) :
    skipBlanks (write level j rest) = write level j rest := by
  obtain ⟨c, cs, hw, hc, -⟩ := h.starts level rest
  rw [hw, skipBlanks_cons hc]

theorem length_lt (h : ReadsBack j) (level : Level) (rest : List Char) :
    rest.length < (write level j rest).length := by
  obtain ⟨c, cs, hw, -⟩ := h.starts level []
  rw [← List.nil_append rest, write_append, hw]
  simp only [List.nil_append, List.length_append, List.length_cons]
  omega

/-- A value that is written in one piece and read without looking into containers. -/
theorem of_start (c : Char) (cs : List Char)
    (hw : ∀ level rest, write level j rest = c :: (cs ++ rest)) (hc : isBlank c = false)
    (hend : c ≠ ']')
    (hread : ∀ {depth fuel rest}, Ends rest → 2 * (cs ++ rest).length ≤ fuel →
      value (fuel + 1) depth (c :: (cs ++ rest)) = .ok (j, rest)) : ReadsBack j where
  starts level rest := ⟨c, cs ++ rest, hw level rest, hc, hend⟩
  value_write level fuel depth rest _ hends hfuel := by
    rw [hw] at hfuel ⊢
    rw [List.length_cons] at hfuel
    obtain ⟨fuel, rfl⟩ := Nat.exists_eq_add_of_lt (show 0 < fuel by omega)
    rw [Nat.zero_add]
    exact hread hends (by omega)

end ReadsBack

theorem readsBack_null : ReadsBack .null :=
  .of_start 'n' ['u', 'l', 'l'] (fun _ _ => rfl) (by decide) (by decide) fun _ _ => rfl

theorem readsBack_bool (b : Bool) : ReadsBack (.bool b) := by
  cases b with
  | false =>
    exact .of_start 'f' ['a', 'l', 's', 'e'] (fun _ _ => rfl) (by decide) (by decide)
      fun _ _ => rfl
  | true =>
    exact .of_start 't' ['r', 'u', 'e'] (fun _ _ => rfl) (by decide) (by decide) fun _ _ => rfl

theorem length_lt_escaped (cs rest : List Char) :
    cs.length + rest.length < (cs.foldr (fun c acc => escaped c ++ acc) ('"' :: rest)).length := by
  induction cs with
  | nil => simp
  | cons c cs ih =>
    have hpos : 0 < (escaped c).length := by unfold escaped; split_ifs <;> simp
    rw [List.foldr_cons, List.length_append, List.length_cons]
    omega

theorem readsBack_string (s : String) : ReadsBack (.string s) := by
  refine .of_start '"' (s.toList.foldr (fun c acc => escaped c ++ acc) ['"'])
    (fun level rest => ?_) (by decide) (by decide) fun {depth fuel rest} _ hfuel => ?_
  · rw [← foldr_escaped_append]; rfl
  · rw [← foldr_escaped_append, List.singleton_append] at hfuel ⊢
    have hlength := length_lt_escaped s.toList rest
    have hread := stringBody_write [] s.toList rest (show s.toList.length < fuel by omega)
    simp only [value, skipBlanks_cons (show isBlank '"' = false by decide), hread, bind,
      Except.bind, List.reverse_nil, List.nil_append, String.ofList_toList]

theorem isBlank_of_isDigit {c : Char} (h : c.isDigit) : isBlank c = false := by
  simp only [isBlank, Bool.or_eq_false_iff, decide_eq_false_iff_not]
  refine ⟨⟨⟨?_, ?_⟩, ?_⟩, ?_⟩ <;> rintro rfl <;> exact absurd h (by decide)

theorem value_of_isDigit {fuel depth : Nat} {c : Char} {cs rest : List Char} {n : Number}
    (h : c.isDigit) (hread : numberBody false (c :: cs) = .ok (n, rest)) :
    value (fuel + 1) depth (c :: cs) = .ok (.number n, rest) := by
  unfold value
  rw [skipBlanks_cons (isBlank_of_isDigit h)]
  split
  all_goals first
    | (next heq => rw [(List.cons.inj heq).1] at h; exact absurd h (by decide))
    | skip
  · next heq =>
    obtain ⟨rfl, rfl⟩ := List.cons.inj heq
    rw [if_pos h, hread]
    rfl
  · next heq => exact absurd heq (List.cons_ne_nil _ _)

theorem readsBack_natural {n : Nat} (h : n < 0x10000000000000000) :
    ReadsBack (.number (.whole n)) := by
  obtain ⟨c, cs, hcs⟩ := List.exists_cons_of_ne_nil (Nat.toDigits_ne_nil (n := n) (b := 10))
  have hdigit : c.isDigit :=
    Nat.isDigit_of_mem_toDigits (b := 10) (n := n) (by decide) (by decide) (by simp [hcs])
  refine .of_start c cs (fun level rest => ?_) (isBlank_of_isDigit hdigit) ?_
    fun {depth fuel rest} hends _ => ?_
  · have hneg : ¬((n : Int) < 0) := by omega
    simp [write, Number.text, hneg, hcs]
  · rintro rfl
    exact absurd hdigit (by decide)
  · refine value_of_isDigit hdigit ?_
    rw [← List.cons_append, ← hcs]
    exact numberBody_toDigits (number_of_natural h) hends

theorem readsBack_negated {n : Nat} (hpos : 0 < n) (h : n ≤ 0x8000000000000000) :
    ReadsBack (.number (.whole (-n))) := by
  refine .of_start '-' (Nat.toDigits 10 n) (fun level rest => ?_) (by decide)
    (by decide) fun {depth fuel rest} hends _ => ?_
  · simp [write, Number.text, hpos]
  · simp only [value, skipBlanks_cons (show isBlank '-' = false by decide),
      numberBody_toDigits (number_of_negated hpos h) hends, bind, Except.bind]

theorem readsBack_number {n : Number} (h : n.IsExact) : ReadsBack (.number n) := by
  cases n with
  | whole n =>
    obtain ⟨hlow, hhigh⟩ := h
    by_cases hn : n < 0
    · rw [show n = -(n.natAbs : Int) by omega]
      exact readsBack_negated (by omega) (by omega)
    · rw [show n = (n.natAbs : Int) by omega]
      exact readsBack_natural (by omega)
  | binary x => exact h.elim

/-! ## Containers -/

/-- The mark behind an item: a comma, or the end of the container. -/
theorem ends_newLine (level : Level) {c : Char} (h : c = ',' ∨ c = ']' ∨ c = '\x7d')
    (cs : List Char) : Ends (newLine level (c :: cs)) := by
  cases level with
  | none =>
    rcases h with rfl | rfl | rfl <;>
      exact ends_cons (by decide) (by decide) (by decide) (by decide)
  | some n => exact ends_cons (by decide) (by decide) (by decide) (by decide)

theorem ends_writeItems (level outer : Level) (js : List Json) (rest : List Char) :
    Ends (writeItems level js (newLine outer (']' :: rest))) := by
  cases js with
  | nil => exact ends_newLine outer (by simp) rest
  | cons j js => exact ends_newLine none (by simp) _

theorem ends_writeFields (level outer : Level) (fs : List (String × Json)) (rest : List Char) :
    Ends (writeFields level fs (newLine outer ('\x7d' :: rest))) := by
  cases fs with
  | nil => exact ends_newLine outer (by simp) rest
  | cons e fs => exact ends_newLine none (by simp) _

theorem length_write_lt_writeItems (level : Level) (j : Json) (js : List Json)
    (rest : List Char) :
    (write level j (writeItems level js rest)).length <
      (writeItems level (j :: js) rest).length := by
  have := length_le_newLine level (write level j (writeItems level js rest))
  rw [writeItems, List.length_cons]
  omega

theorem length_le_writeString (s : String) (rest : List Char) :
    s.toList.length + rest.length + 1 < (writeString s rest).length := by
  have := length_lt_escaped s.toList rest
  rw [writeString, List.length_cons]
  omega

theorem length_field_lt_writeFields (level : Level) (k : String) (j : Json)
    (fs : List (String × Json)) (rest : List Char) :
    (writeString k (colon level (write level j (writeFields level fs rest)))).length <
      (writeFields level ((k, j) :: fs) rest).length := by
  have := length_le_newLine level
    (writeString k (colon level (write level j (writeFields level fs rest))))
  rw [writeFields, List.length_cons]
  omega

theorem skipBlanks_writeString (s : String) (rest : List Char) :
    skipBlanks (writeString s rest) = writeString s rest := skipBlanks_cons (by decide) _

/-- An item and all that follows it in its array. -/
theorem items_write (level outer : Level) {fuel depth : Nat} {j : Json} {js : List Json}
    (hback : ∀ i ∈ j :: js, ReadsBack i ∧ i.depth ≤ depth) (acc : List Json) (rest : List Char)
    (hfuel :
      2 * (write level j (writeItems level js (newLine outer (']' :: rest)))).length < fuel) :
    items fuel depth acc (write level j (writeItems level js (newLine outer (']' :: rest)))) =
      .ok (.array (acc.reverse ++ j :: js), rest) := by
  induction js generalizing j acc fuel with
  | nil =>
    obtain ⟨fuel, rfl⟩ := Nat.exists_eq_add_of_lt (Nat.zero_lt_of_lt hfuel)
    obtain ⟨hj, hdepth⟩ := hback j (by simp)
    have hread := hj.value_write level fuel hdepth (ends_writeItems level outer [] rest) (by omega)
    rw [Nat.zero_add, items, hread]
    simp [writeItems, skipBlanks_cons (show isBlank ']' = false by decide)]
  | cons i js ih =>
    obtain ⟨fuel, rfl⟩ := Nat.exists_eq_add_of_lt (Nat.zero_lt_of_lt hfuel)
    obtain ⟨hj, hdepth⟩ := hback j (by simp)
    obtain ⟨hi, -⟩ := hback i (by simp)
    have hread := hj.value_write level fuel hdepth (ends_writeItems level outer (i :: js) rest)
      (by omega)
    have hlength := hj.length_lt level (writeItems level (i :: js) (newLine outer (']' :: rest)))
    have hnext : items fuel depth (j :: acc)
        (write level i (writeItems level js (newLine outer (']' :: rest)))) =
          .ok (.array ((j :: acc).reverse ++ i :: js), rest) := by
      refine ih (fun k hk => hback k (.tail _ hk)) _ ?_
      have := length_write_lt_writeItems level i js (newLine outer (']' :: rest))
      omega
    rw [Nat.zero_add, items, hread]
    obtain ⟨c, cs, hw, -, hend⟩ :=
      hi.starts level (writeItems level js (newLine outer (']' :: rest)))
    simp only [writeItems, skipBlanks_cons (show isBlank ',' = false by decide),
      skipBlanks_newLine, hi.skipBlanks_write]
    split
    · next heq => rw [hw] at heq; exact absurd (List.cons.inj heq).1 hend
    · rw [hnext]; simp

/-- The name of a field and its colon. -/
theorem fieldName_write {fuel : Nat} (level : Level) (name : String) (cs : List Char)
    (hfuel : name.toList.length < fuel) :
    ∃ left, fieldName fuel (writeString name (colon level cs)) = .ok (name, left) ∧
      skipBlanks left = skipBlanks cs := by
  have hname := stringBody_write [] name.toList (colon level cs) hfuel
  rw [List.reverse_nil, List.nil_append, String.ofList_toList] at hname
  cases level with
  | none =>
    refine ⟨cs, ?_, rfl⟩
    simp only [writeString, fieldName, hname, bind, Except.bind]
    rfl
  | some n =>
    refine ⟨' ' :: cs, ?_, rfl⟩
    simp only [writeString, fieldName, hname, bind, Except.bind]
    rfl

theorem fields_skipBlanks (fuel depth : Nat) (acc : List (String × Json)) (cs : List Char) :
    fields fuel depth acc (skipBlanks cs) = fields fuel depth acc cs := by
  cases fuel with
  | zero => rfl
  | succ fuel => simp only [fields, skipBlanks_skipBlanks]

/-- A field, up to what follows its value. -/
theorem field_write (mark level : Level) (fuel : Nat) (k : String) {depth : Nat} {j : Json}
    {tail : List Char} (hback : ReadsBack j) (hdepth : j.depth ≤ depth) (htail : Ends tail)
    (hfuel : 2 * (writeString k (colon mark (write level j tail))).length ≤ fuel) :
    ∃ left, fieldName fuel (writeString k (colon mark (write level j tail))) = .ok (k, left) ∧
      value fuel depth left = .ok (j, tail) := by
  have hlength := length_le_writeString k (colon mark (write level j tail))
  have hcolon := length_le_colon mark (write level j tail)
  obtain ⟨left, hname, hleft⟩ :=
    fieldName_write mark k (write level j tail) (show _ < fuel by omega)
  refine ⟨left, hname, ?_⟩
  rw [← value_skipBlanks, hleft, value_skipBlanks]
  exact hback.value_write level fuel hdepth htail (by omega)

theorem insert_of_ascending {k : String} {j : Json} {acc fs : List (String × Json)}
    (h : Keyed.Ascending (acc ++ (k, j) :: fs)) : Keyed.insert k j acc = acc ++ [(k, j)] := by
  induction acc with
  | nil => rfl
  | cons e acc ih =>
    obtain ⟨l, i⟩ := e
    obtain ⟨hlt, hasc⟩ := List.pairwise_cons.1 h
    have hl : l < k := hlt (k, j) (by simp)
    rw [Keyed.insert, if_neg hl.ne', if_neg hl.asymm, ih hasc]
    rfl

/-- A field and all that follows it in its object. The colon of the first field is written at the
level of the object and not of its fields. -/
theorem fields_write (mark level outer : Level) {fuel depth : Nat} {k : String} {j : Json}
    {fs : List (String × Json)} (hback : ∀ e ∈ (k, j) :: fs, ReadsBack e.2 ∧ e.2.depth ≤ depth)
    (acc : List (String × Json)) (hasc : Keyed.Ascending (acc ++ (k, j) :: fs)) (rest : List Char)
    (hfuel : 2 * (writeString k (colon mark
      (write level j (writeFields level fs (newLine outer ('\x7d' :: rest)))))).length < fuel) :
    fields fuel depth acc (writeString k (colon mark
      (write level j (writeFields level fs (newLine outer ('\x7d' :: rest)))))) =
        .ok (.object (acc ++ (k, j) :: fs), rest) := by
  induction fs generalizing mark k j acc fuel with
  | nil =>
    obtain ⟨fuel, rfl⟩ := Nat.exists_eq_add_of_lt (Nat.zero_lt_of_lt hfuel)
    obtain ⟨hj, hdepth⟩ : ReadsBack j ∧ j.depth ≤ depth := hback (k, j) (by simp)
    obtain ⟨left, hname, hvalue⟩ := field_write mark level fuel k hj hdepth
      (ends_writeFields level outer [] rest) (by omega)
    rw [Nat.zero_add, fields, skipBlanks_writeString, hname]
    simp only [hvalue]
    simp [writeFields, skipBlanks_cons (show isBlank '\x7d' = false by decide),
      insert_of_ascending hasc]
  | cons e fs ih =>
    obtain ⟨l, i⟩ := e
    obtain ⟨fuel, rfl⟩ := Nat.exists_eq_add_of_lt (Nat.zero_lt_of_lt hfuel)
    obtain ⟨hj, hdepth⟩ : ReadsBack j ∧ j.depth ≤ depth := hback (k, j) (by simp)
    obtain ⟨left, hname, hvalue⟩ := field_write mark level fuel k hj hdepth
      (ends_writeFields level outer ((l, i) :: fs) rest) (by omega)
    have hlength := hj.length_lt level
      (writeFields level ((l, i) :: fs) (newLine outer ('\x7d' :: rest)))
    have hnext : fields fuel depth (acc ++ [(k, j)]) (writeString l (colon level
        (write level i (writeFields level fs (newLine outer ('\x7d' :: rest)))))) =
          .ok (.object (acc ++ [(k, j)] ++ (l, i) :: fs), rest) := by
      refine ih level (fun e he => hback e (.tail _ he)) _ ?_ ?_
      · rwa [List.append_assoc]
      · have := length_field_lt_writeFields level l i fs (newLine outer ('\x7d' :: rest))
        have := length_le_writeString k (colon mark
          (write level j (writeFields level ((l, i) :: fs) (newLine outer ('\x7d' :: rest)))))
        have := length_le_colon mark
          (write level j (writeFields level ((l, i) :: fs) (newLine outer ('\x7d' :: rest))))
        omega
    rw [Nat.zero_add, fields, skipBlanks_writeString, hname]
    simp only [hvalue]
    rw [insert_of_ascending hasc, writeFields, skipBlanks_cons (by decide)]
    show fields fuel depth (acc ++ [(k, j)]) _ = _
    rw [← fields_skipBlanks, skipBlanks_newLine, fields_skipBlanks, hnext]
    simp

/-! ## Documents -/

theorem depth_le_of_mem_items {i : Json} {items : List Json} (h : i ∈ items) :
    i.depth ≤ depthItems items := by
  induction items with
  | nil => cases h
  | cons j rest ih =>
    rcases List.mem_cons.1 h with rfl | h
    · exact Nat.le_max_left ..
    · exact (ih h).trans (Nat.le_max_right ..)

theorem depth_le_of_mem_fields {e : String × Json} {fields : List (String × Json)}
    (h : e ∈ fields) : e.2.depth ≤ depthFields fields := by
  induction fields with
  | nil => cases h
  | cons f rest ih =>
    rcases List.mem_cons.1 h with rfl | h
    · exact Nat.le_max_left ..
    · exact (ih h).trans (Nat.le_max_right ..)

theorem readsBack_array {items : List Json} (h : ∀ i ∈ items, ReadsBack i) :
    ReadsBack (.array items) where
  starts level rest := by cases items <;> exact ⟨'[', _, rfl, by decide, by decide⟩
  value_write level fuel depth rest hdepth hends hfuel := by
    obtain ⟨depth, rfl⟩ := Nat.exists_eq_add_of_lt (Nat.zero_lt_of_lt hdepth)
    rw [Nat.zero_add] at hdepth ⊢
    cases items with
    | nil =>
      obtain ⟨fuel, rfl⟩ := Nat.exists_eq_add_of_lt (show 0 < fuel by simp [write] at hfuel; omega)
      simp [write, value, skipBlanks_cons (show isBlank '[' = false by decide),
        skipBlanks_cons (show isBlank ']' = false by decide)]
    | cons j js =>
      obtain ⟨inner, hwrite⟩ : ∃ inner, write level (.array (j :: js)) rest =
          '[' :: newLine inner
            (write inner j (writeItems inner js (newLine level (']' :: rest)))) :=
        ⟨level.map (· + 1), rfl⟩
      have hlength := length_le_newLine inner
        (write inner j (writeItems inner js (newLine level (']' :: rest))))
      rw [hwrite, List.length_cons] at hfuel
      obtain ⟨fuel, rfl⟩ := Nat.exists_eq_add_of_lt (show 0 < fuel by omega)
      have hread := items_write inner level
        (fun i hi => ⟨h i hi, (depth_le_of_mem_items hi).trans (Nat.le_of_succ_le_succ hdepth)⟩) []
        rest (show _ < fuel by omega)
      obtain ⟨c, cs, hw, -, hend⟩ :=
        (h j (by simp)).starts inner (writeItems inner js (newLine level (']' :: rest)))
      rw [Nat.zero_add, hwrite]
      simp only [value, skipBlanks_cons (show isBlank '[' = false by decide),
        skipBlanks_newLine, (h j (by simp)).skipBlanks_write]
      split
      · next heq => rw [hw] at heq; exact absurd (List.cons.inj heq).1 hend
      · exact hread

theorem readsBack_object {fields : List (String × Json)} (hasc : Keyed.Ascending fields)
    (h : ∀ e ∈ fields, ReadsBack e.2) : ReadsBack (.object fields) where
  starts level rest := by cases fields <;> exact ⟨'\x7b', _, rfl, by decide, by decide⟩
  value_write level fuel depth rest hdepth hends hfuel := by
    obtain ⟨depth, rfl⟩ := Nat.exists_eq_add_of_lt (Nat.zero_lt_of_lt hdepth)
    rw [Nat.zero_add] at hdepth ⊢
    cases fields with
    | nil =>
      obtain ⟨fuel, rfl⟩ := Nat.exists_eq_add_of_lt (show 0 < fuel by simp [write] at hfuel; omega)
      simp [write, value, skipBlanks_cons (show isBlank '\x7b' = false by decide),
        skipBlanks_cons (show isBlank '\x7d' = false by decide)]
    | cons e fs =>
      obtain ⟨k, j⟩ := e
      obtain ⟨inner, hwrite⟩ : ∃ inner, write level (.object ((k, j) :: fs)) rest =
          '\x7b' :: newLine inner (writeString k (colon level
            (write inner j (writeFields inner fs (newLine level ('\x7d' :: rest)))))) :=
        ⟨level.map (· + 1), rfl⟩
      have hlength := length_le_newLine inner (writeString k (colon level
        (write inner j (writeFields inner fs (newLine level ('\x7d' :: rest))))))
      rw [hwrite, List.length_cons] at hfuel
      obtain ⟨fuel, rfl⟩ := Nat.exists_eq_add_of_lt (show 0 < fuel by omega)
      have hread := fields_write level inner level
        (fun e he => ⟨h e he, (depth_le_of_mem_fields he).trans (Nat.le_of_succ_le_succ hdepth)⟩)
        [] hasc rest (show _ < fuel by omega)
      rw [Nat.zero_add, hwrite]
      simp only [value, skipBlanks_cons (show isBlank '\x7b' = false by decide),
        skipBlanks_newLine, skipBlanks_writeString]
      exact hread

mutual

theorem readsBack : (j : Json) → j.Canonical → j.IsExact → ReadsBack j
  | .null, _, _ => readsBack_null
  | .bool b, _, _ => readsBack_bool b
  | .number _, _, h => readsBack_number h
  | .string s, _, _ => readsBack_string s
  | .array items, hcanonical, hexact =>
    readsBack_array (readsBack_items items hcanonical hexact)
  | .object fields, hcanonical, hexact =>
    readsBack_object hcanonical.1 (readsBack_fields fields hcanonical.2 hexact)

theorem readsBack_items : (items : List Json) → CanonicalItems items → ItemsAreExact items →
    ∀ i ∈ items, ReadsBack i
  | [], _, _, _, h => absurd h List.not_mem_nil
  | j :: rest, hcanonical, hexact, i, h =>
    (List.mem_cons.1 h).elim (fun heq => heq ▸ readsBack j hcanonical.1 hexact.1)
      (readsBack_items rest hcanonical.2 hexact.2 i)

theorem readsBack_fields : (fields : List (String × Json)) → CanonicalFields fields →
    FieldsAreExact fields → ∀ e ∈ fields, ReadsBack e.2
  | [], _, _, _, h => absurd h List.not_mem_nil
  | (_, j) :: rest, hcanonical, hexact, e, h =>
    (List.mem_cons.1 h).elim (fun heq => heq ▸ readsBack j hcanonical.1 hexact.1)
      (readsBack_fields rest hcanonical.2 hexact.2 e)

end

/-- **A portable document is read back from its text**, with blanks behind it. -/
theorem read_write {j : Json} (h : j.IsPortable) (level : Level) {blanks : List Char}
    (hblanks : ∀ c ∈ blanks, isBlank c) :
    read (String.ofList (write level j blanks)) = .ok j := by
  have hends : Ends blanks := by
    intro c hc
    have hblank := hblanks c (List.mem_of_mem_head? hc)
    simp only [isBlank, Bool.or_eq_true, decide_eq_true_eq] at hblank
    rcases hblank with ((rfl | rfl) | rfl) | rfl <;> decide
  have hskip : skipBlanks blanks = [] := by
    have := skipBlanks_append hblanks []
    rwa [List.append_nil] at this
  have hread := (readsBack j h.canonical h.exact).value_write level _ h.depth_le hends
    (Nat.le_add_right _ 4)
  simp only [read, String.toList_ofList, hread, bind, Except.bind, hskip]

end Json
end CampaignControl
