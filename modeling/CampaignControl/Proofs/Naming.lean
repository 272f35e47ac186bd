import CampaignControl.Naming
import Mathlib.Algebra.GroupWithZero.Nat
import Mathlib.Data.List.DropRight
import Mathlib.Data.List.TakeWhile
import Mathlib.Data.String.Basic

/-!
# What names tell apart

The name of a work unit ends with the index of its batch as a whole, and there is no hyphen in
the digits of an index: they are what follows the last hyphen. A name has at most 63 bytes, unless
its suffix alone is longer. What stands before the suffix is as much of the campaign's name as there
is room for, up to the separators at the end of that (`Naming.Abridged`). These are lost also where
there is room for the whole name, so two campaigns whose names differ in them share all their names
(`Naming.fitting_names`).
-/

namespace CampaignControl
namespace Naming

/-- What follows the last hyphen. -/
def afterHyphen (name : String) : List Char := (name.toList.reverse.takeWhile (· ≠ '-')).reverse

theorem ne_hyphen_of_mem_toString {index : Nat} {c : Char} (h : c ∈ (toString index).toList) :
    c ≠ '-' := by
  rw [Nat.toString_eq_ofList_toDigits, String.toList_ofList] at h
  rintro rfl
  have := Nat.isDigit_of_mem_toDigits (by decide) (by decide) h
  revert this
  decide

theorem afterHyphen_workUnit (campaign : String) (index : Nat) :
    afterHyphen (workUnit campaign index) = (toString index).toList := by
  have hdigits : ∀ c ∈ (toString index).toList.reverse, decide (c ≠ '-') = true :=
    fun c hc => decide_eq_true (ne_hyphen_of_mem_toString (List.mem_reverse.1 hc))
  unfold afterHyphen workUnit bounded batchSuffix
  simp only [String.toList_append, List.reverse_append, List.append_assoc]
  rw [List.takeWhile_append_of_pos hdigits]
  simp

/-- Names of work units with different indices differ, whatever campaigns they are of. -/
theorem workUnit_index_inj {campaign campaign' : String} {i j : Nat}
    (h : workUnit campaign i = workUnit campaign' j) : i = j := by
  have hdigits : (toString i).toList = (toString j).toList := by
    rw [← afterHyphen_workUnit campaign i, h, afterHyphen_workUnit]
  rw [Nat.toString_eq_ofList_toDigits, Nat.toString_eq_ofList_toDigits, String.toList_ofList,
    String.toList_ofList] at hdigits
  -- the digits are read back
  have hread := congrArg (Nat.ofDigitChars 10 · 0) hdigits
  simpa using hread

/-! ## Lengths -/

open String (utf8Len)

theorem utf8Len_fitting_le (bytes : Nat) (cs : List Char) : utf8Len (fitting bytes cs) ≤ bytes := by
  induction cs generalizing bytes with
  | nil => exact Nat.zero_le bytes
  | cons c cs ih =>
    rw [fitting]
    split
    · next hfits =>
      rw [String.utf8Len_cons]
      exact Nat.add_le_of_le_sub hfits (ih (bytes - c.utf8Size))
    · exact Nat.zero_le bytes

theorem utf8Len_trimSeparators_le (cs : List Char) : utf8Len (trimSeparators cs) ≤ utf8Len cs :=
  String.utf8Len_le_of_prefix (List.rdropWhile_prefix isSeparator cs)

/-- A name is not too long, unless its suffix is. -/
theorem utf8ByteSize_bounded_le {suffix : String} (h : suffix.utf8ByteSize ≤ maxBytes)
    (base : String) : (bounded base suffix).utf8ByteSize ≤ maxBytes := by
  have hbase := (utf8Len_trimSeparators_le _).trans
    (utf8Len_fitting_le (maxBytes - suffix.utf8ByteSize) base.toList)
  rw [bounded, String.utf8ByteSize_append, String.utf8ByteSize_ofList]
  exact Nat.add_le_of_le_sub h hbase

/-- An index takes one byte for each of its digits. -/
theorem utf8ByteSize_toString (index : Nat) :
    (toString index).utf8ByteSize = (Nat.toDigits 10 index).length := by
  have hdigits : ∀ cs : List Char, (∀ c ∈ cs, c.isDigit) → utf8Len cs = cs.length := by
    intro cs h
    induction cs with
    | nil => rfl
    | cons c cs ih =>
      obtain ⟨hdigit, hrest⟩ := List.forall_mem_cons.1 h
      have hone : c.utf8Size = 1 := by
        simp only [Char.isDigit, Bool.and_eq_true, decide_eq_true_eq] at hdigit
        exact Char.utf8Size_eq_one_iff.2 (UInt32.le_trans hdigit.2 (by decide))
      rw [String.utf8Len_cons, ih hrest, hone, List.length_cons]
  rw [Nat.toString_eq_ofList_toDigits, String.utf8ByteSize_ofList]
  exact hdigits _ fun c hc => Nat.isDigit_of_mem_toDigits (by decide) (by decide) hc

/-- There is room for the suffix of a batch. An index of a machine word has at most 20 digits. -/
theorem utf8ByteSize_batchSuffix_le {index : Nat} (h : index < 2 ^ 64) :
    (batchSuffix index).utf8ByteSize ≤ maxBytes := by
  have hdigits : (Nat.toDigits 10 index).length ≤ 20 :=
    (Nat.length_toDigits_le_iff (by decide) (by decide)).2 (h.trans (by decide))
  rw [batchSuffix, String.utf8ByteSize_append, utf8ByteSize_toString]
  exact (Nat.add_le_add_left hdigits _).trans (by decide)

/-- The name of a work unit is not too long. -/
theorem utf8ByteSize_workUnit_le (campaign : String) {index : Nat} (h : index < 2 ^ 64) :
    (workUnit campaign index).utf8ByteSize ≤ maxBytes :=
  utf8ByteSize_bounded_le (utf8ByteSize_batchSuffix_le h) campaign

/-! ## What is cut -/

/-- Of the starts of a text that have at most so many bytes, this is the longest one. -/
structure IsLongestStart (bytes : Nat) (text start : List Char) : Prop where
  begins : start <+: text
  fits : utf8Len start ≤ bytes
  longest : ∀ other, other <+: text → utf8Len other ≤ bytes → other <+: start

/-- A text without the separators at its end. -/
structure IsTrimmed (text stem : List Char) : Prop where
  exists_separators : ∃ separators, text = stem ++ separators ∧ ∀ c ∈ separators, c = '-' ∨ c = '.'
  not_separator : ∀ c, stem.getLast? = some c → c ≠ '-' ∧ c ≠ '.'

/-- A name is made of a base and a suffix within so many bytes: before the suffix, which is there
as a whole, stands the longest start of the base that leaves room for it, without the separators
at its end. -/
structure Abridged (bytes : Nat) (base suffix name : String) : Prop where
  le_bytes : name.utf8ByteSize ≤ bytes
  exists_stem : ∃ start stem, IsLongestStart (bytes - suffix.utf8ByteSize) base.toList start ∧
    IsTrimmed start stem ∧ name = String.ofList stem ++ suffix

theorem fitting_prefix (bytes : Nat) (cs : List Char) : fitting bytes cs <+: cs := by
  induction cs generalizing bytes with
  | nil => exact List.prefix_rfl
  | cons c cs ih =>
    rw [fitting]
    split
    · exact (List.prefix_cons_inj c).2 (ih _)
    · exact List.nil_prefix

/-- Every other start of the text that fits is a start of the one that is kept. -/
theorem prefix_fitting {bytes : Nat} {cs other : List Char} (h : other <+: cs)
    (hfits : utf8Len other ≤ bytes) : other <+: fitting bytes cs := by
  induction cs generalizing bytes other with
  | nil =>
    rw [List.prefix_nil.1 h]
    exact List.nil_prefix
  | cons c cs ih =>
    cases other with
    | nil => exact List.nil_prefix
    | cons d other =>
      obtain ⟨rfl, hrest⟩ := List.cons_prefix_cons.1 h
      rw [String.utf8Len_cons] at hfits
      rw [fitting, if_pos (Nat.le_of_add_left_le hfits), List.prefix_cons_inj]
      exact ih hrest (Nat.le_sub_of_add_le hfits)

theorem fitting_isLongestStart (bytes : Nat) (cs : List Char) :
    IsLongestStart bytes cs (fitting bytes cs) where
  begins := fitting_prefix bytes cs
  fits := utf8Len_fitting_le bytes cs
  longest _ := prefix_fitting

theorem isSeparator_iff {c : Char} : isSeparator c ↔ c = '-' ∨ c = '.' := by
  simp [isSeparator]

theorem trimSeparators_isTrimmed (cs : List Char) : IsTrimmed cs (trimSeparators cs) where
  exists_separators :=
    ⟨cs.rtakeWhile isSeparator, List.rdropWhile_append_rtakeWhile.symm,
      fun _ hc => isSeparator_iff.1 (List.mem_rtakeWhile_imp hc)⟩
  not_separator c hlast := by
    obtain ⟨hne, rfl⟩ := List.mem_getLast?_eq_getLast hlast
    have hstays := List.rdropWhile_last_not isSeparator cs hne
    rw [isSeparator_iff, not_or] at hstays
    exact hstays

theorem bounded_abridged {suffix : String} (h : suffix.utf8ByteSize ≤ maxBytes) (base : String) :
    Abridged maxBytes base suffix (bounded base suffix) where
  le_bytes := utf8ByteSize_bounded_le h base
  exists_stem := ⟨_, _, fitting_isLongestStart _ _, trimSeparators_isTrimmed _, rfl⟩

/-- **Generated names fit and keep the index.** The name of a work unit has at most 63 bytes and
ends with the index of its batch, and the name of the configuration document ends with what is said
of the batches. What stands in front is as much of the campaign's name as fits, cut between two
characters, without the separators at the end of that. Names with different indices are different,
whatever campaigns they are made of and however these are cut. -/
theorem names_fit (campaign : String) {index : Nat} (h : index < 2 ^ 64) :
    Abridged 63 campaign ("-batch-" ++ toString index) (workUnit campaign index) ∧
      Abridged 63 campaign "-batches" (configDocument campaign) ∧
      ∀ campaign' index', index' ≠ index → workUnit campaign' index' ≠ workUnit campaign index := by
  refine ⟨bounded_abridged (utf8ByteSize_batchSuffix_le h) campaign,
    bounded_abridged (by decide) campaign, ?_⟩
  intro campaign' index' hne hsame
  exact hne (workUnit_index_inj hsame)

/-- A name that is cut in front of a character of two bytes, and then loses two separators. -/
theorem names_fit_sample :
    let stem := String.ofList (List.replicate 26 'é')
    workUnit (stem ++ "-.élan") 7 = stem ++ "-batch-7" ∧ 7 < 2 ^ 64 ∧
      Abridged 63 (stem ++ "-.élan") ("-batch-" ++ toString 7) (workUnit (stem ++ "-.élan") 7) ∧
      Abridged 63 (stem ++ "-.élan") "-batches" (configDocument (stem ++ "-.élan")) ∧
      workUnit (stem ++ "-.élan") 18446744073709551615 ≠ workUnit (stem ++ "-.élan") 7 := by
  intro stem
  have hindex : 7 < 2 ^ 64 := by decide
  obtain ⟨hunit, hdocument, hother⟩ := names_fit (stem ++ "-.élan") hindex
  exact ⟨by decide +kernel, hindex, hunit, hdocument, hother _ _ (by decide)⟩

/-! ## Names that fit

Separators at the end of a base are taken away whether or not something has been cut. A name that
fits is not always whole, and what it tells of its base is what is left without them. -/

/-- A base and a suffix need not be cut to be a name. -/
def Fits (base suffix : String) : Prop := base.utf8ByteSize + suffix.utf8ByteSize ≤ maxBytes

/-- The last character is a separator. -/
def EndsInSeparator (name : String) : Prop := ∃ c ∈ name.toList.getLast?, c = '-' ∨ c = '.'

/-- Two names are the same up to the separators at their ends. -/
def Alike (name name' : String) : Prop :=
  ∃ stem, IsTrimmed name.toList stem ∧ IsTrimmed name'.toList stem

instance (base suffix : String) : Decidable (Fits base suffix) :=
  inferInstanceAs (Decidable (_ ≤ _))

-- named, as the other instance for such statements tries all characters there are
instance (name : String) : Decidable (EndsInSeparator name) :=
  Option.decidableExistsMem name.toList.getLast?

theorem IsTrimmed.eq {text stem : List Char} (h : IsTrimmed text stem) :
    trimSeparators text = stem := by
  obtain ⟨separators, rfl, hall⟩ := h.exists_separators
  have hdrops : ∀ c ∈ separators.reverse, isSeparator c = true :=
    fun c hc => isSeparator_iff.2 (hall c (List.mem_reverse.1 hc))
  rw [trimSeparators, List.reverse_append, List.dropWhile_append_of_pos hdrops]
  -- the end of the stem stays
  refine List.rdropWhile_eq_self_iff.2 fun hne => ?_
  rw [isSeparator_iff, not_or]
  exact h.not_separator _ (List.getLast?_eq_some_getLast hne)

theorem isTrimmed_iff {text stem : List Char} :
    IsTrimmed text stem ↔ trimSeparators text = stem :=
  ⟨IsTrimmed.eq, fun h => h ▸ trimSeparators_isTrimmed text⟩

theorem alike_iff {name name' : String} :
    Alike name name' ↔ trimSeparators name.toList = trimSeparators name'.toList := by
  simp only [Alike, isTrimmed_iff]
  exact ⟨fun ⟨_, h, h'⟩ => h.trans h'.symm, fun h => ⟨_, h, rfl⟩⟩

theorem trimSeparators_eq_self_iff {name : String} :
    trimSeparators name.toList = name.toList ↔ ¬ EndsInSeparator name := by
  rw [← isTrimmed_iff]
  constructor
  · rintro h ⟨c, hlast, hc⟩
    obtain ⟨hhyphen, hdot⟩ := h.not_separator c hlast
    exact hc.elim hhyphen hdot
  · intro h
    refine ⟨⟨[], (List.append_nil _).symm, nofun⟩, fun c hlast => not_or.1 fun hc => ?_⟩
    exact h ⟨c, hlast, hc⟩

/-- Names that do not end in a separator are told apart. -/
theorem alike_iff_eq {name name' : String} (h : ¬ EndsInSeparator name)
    (h' : ¬ EndsInSeparator name') : Alike name name' ↔ name = name' := by
  rw [alike_iff, trimSeparators_eq_self_iff.2 h, trimSeparators_eq_self_iff.2 h',
    String.toList_inj]

theorem utf8Len_eq_sum (cs : List Char) : utf8Len cs = (cs.map Char.utf8Size).sum := by
  induction cs with
  | nil => rfl
  | cons c cs ih => rw [String.utf8Len_cons, ih, List.map_cons, List.sum_cons, Nat.add_comm]

theorem fitting_of_sum_le {bytes : Nat} {cs : List Char}
    (h : (cs.map Char.utf8Size).sum ≤ bytes) : fitting bytes cs = cs := by
  induction cs generalizing bytes with
  | nil => rfl
  | cons c cs ih =>
    rw [List.map_cons, List.sum_cons] at h
    have hrest : (cs.map Char.utf8Size).sum ≤ bytes - c.utf8Size := by omega
    rw [fitting, if_pos (by omega), ih hrest]

/-- Of a base that fits nothing is lost but the separators at its end. -/
theorem bounded_of_fits {base suffix : String} (h : Fits base suffix) :
    bounded base suffix = String.ofList (trimSeparators base.toList) ++ suffix := by
  have hroom : (base.toList.map Char.utf8Size).sum ≤ maxBytes - suffix.utf8ByteSize := by
    rw [← utf8Len_eq_sum, String.utf8Len_toList]
    exact Nat.le_sub_of_add_le h
  rw [bounded, fitting_of_sum_le hroom]

theorem bounded_eq_iff_alike {base base' suffix : String} (h : Fits base suffix)
    (h' : Fits base' suffix) : bounded base suffix = bounded base' suffix ↔ Alike base base' := by
  rw [bounded_of_fits h, bounded_of_fits h', String.append_left_inj, String.ofList_inj, alike_iff]

theorem bounded_eq_append_iff {base suffix : String} (h : Fits base suffix) :
    bounded base suffix = base ++ suffix ↔ ¬ EndsInSeparator base := by
  rw [bounded_of_fits h, String.append_left_inj, ← trimSeparators_eq_self_iff, ← String.toList_inj,
    String.toList_ofList]

/-- **Names that fit lose the separators at their ends, and nothing else.** A name that fits
together with a suffix stands in front of it without its last separators, so it is there as a whole
exactly when it does not end in a separator. What is made of the names of two campaigns is the same,
at whatever index, exactly when they are the same up to the separators at their ends; for names that
do not end in one, when they are the same. -/
theorem fitting_names (name name' : String) :
    (∀ suffix, Fits name suffix →
      (∃ stem, IsTrimmed name.toList stem ∧ bounded name suffix = String.ofList stem ++ suffix) ∧
        (bounded name suffix = name ++ suffix ↔ ¬ EndsInSeparator name)) ∧
      (∀ index, Fits name (batchSuffix index) → Fits name' (batchSuffix index) →
        (workUnit name index = workUnit name' index ↔ Alike name name')) ∧
      (Fits name documentSuffix → Fits name' documentSuffix →
        (configDocument name = configDocument name' ↔ Alike name name')) ∧
      (¬ EndsInSeparator name → ¬ EndsInSeparator name' → (Alike name name' ↔ name = name')) := by
  refine ⟨fun suffix h => ?_, fun index => bounded_eq_iff_alike, bounded_eq_iff_alike, alike_iff_eq⟩
  exact ⟨⟨_, trimSeparators_isTrimmed _, bounded_of_fits h⟩, bounded_eq_append_iff h⟩

/-- Two campaigns whose names differ in a hyphen and a dot at the end, and a third one. -/
theorem fitting_names_sample :
    (Fits "nightly" "-batch-7" ∧ bounded "nightly" "-batch-7" = "nightly" ++ "-batch-7") ∧
      (Fits "nightly-." (batchSuffix 7) ∧ Fits "nightly" (batchSuffix 7) ∧
        Alike "nightly-." "nightly" ∧ workUnit "nightly-." 7 = workUnit "nightly" 7) ∧
      (Fits "nightly" documentSuffix ∧ Fits "weekly" documentSuffix ∧
        ¬ EndsInSeparator "nightly" ∧ ¬ EndsInSeparator "weekly" ∧
        configDocument "nightly" ≠ configDocument "weekly") := by
  have hnight : Fits "nightly" documentSuffix := by decide +kernel
  have hweek : Fits "weekly" documentSuffix := by decide +kernel
  have hends : ¬ EndsInSeparator "nightly" := by decide +kernel
  have hends' : ¬ EndsInSeparator "weekly" := by decide +kernel
  have hunit : Fits "nightly" (batchSuffix 7) := by decide +kernel
  have hunit' : Fits "nightly-." (batchSuffix 7) := by decide +kernel
  have halike : Alike "nightly-." "nightly" := alike_iff.2 (by decide +kernel)
  obtain ⟨hwhole, -, hdocument, hapart⟩ := fitting_names "nightly" "weekly"
  obtain ⟨-, hsame, -⟩ := fitting_names "nightly-." "nightly"
  refine ⟨⟨hunit, (hwhole _ hunit).2.2 hends⟩, ⟨hunit', hunit, halike, ?_⟩,
    ⟨hnight, hweek, hends, hends', fun hsame' => ?_⟩⟩
  · exact (hsame 7 hunit' hunit).2 halike
  · exact absurd ((hapart hends hends').1 ((hdocument hnight hweek).1 hsame')) (by decide)

/-- A hyphen at the end of a campaign's name is lost though nothing has to be cut, and then the
campaign has the names of another one. -/
theorem separator_lost :
    ¬ (∀ base suffix, Fits base suffix → bounded base suffix = base ++ suffix) ∧
      ¬ ∀ campaign campaign' index, campaign ≠ campaign' →
        Fits campaign (batchSuffix index) → Fits campaign' (batchSuffix index) →
        Fits campaign documentSuffix → Fits campaign' documentSuffix →
        workUnit campaign index ≠ workUnit campaign' index ∧
          configDocument campaign ≠ configDocument campaign' := by
  constructor
  · intro h
    exact absurd (h "nightly-" "-batch-0" (by decide +kernel)) (by decide +kernel)
  · intro h
    exact absurd (h "nightly-" "nightly" 0 (by decide +kernel) (by decide +kernel)
      (by decide +kernel) (by decide +kernel) (by decide +kernel)) (by decide +kernel)

end Naming
end CampaignControl
