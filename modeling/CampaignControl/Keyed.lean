/-!
# Keyed lists

Lists of pairs read as finite maps, kept in ascending order of their keys. `find?` looks for
an equal key, `insert` replaces the entry of an equal key or puts a new one in front of the
first greater key, and `erase` drops every entry of a key.

What `find?` answers after `insert` and `erase` needs no hypothesis on the list
(`find?_insert`, `find?_erase`); `Ascending` is the shape that `insert` and `erase` keep, and
in it every key occurs once.
-/

namespace CampaignControl
namespace Keyed

universe u v

variable {κ : Type u} {ν : Type v}

/-- The keys are in strictly ascending order. -/
def Ascending [LT κ] (entries : List (κ × ν)) : Prop :=
  entries.Pairwise fun a b => a.1 < b.1

section
variable [DecidableEq κ]

/-- The value of the first entry with this key. -/
def find? (key : κ) : List (κ × ν) → Option ν
  | [] => none
  | (k, v) :: rest => if k = key then some v else find? key rest

/-- Whether some entry has this key. -/
def contains (key : κ) (entries : List (κ × ν)) : Bool :=
  (find? key entries).isSome

/-- The entries of all other keys. -/
def erase (key : κ) : List (κ × ν) → List (κ × ν)
  | [] => []
  | (k, v) :: rest => if k = key then erase key rest else (k, v) :: erase key rest

/-- Changes the value of the first entry with this key, if there is one. -/
def adjust (key : κ) (f : ν → ν) : List (κ × ν) → List (κ × ν)
  | [] => []
  | (k, v) :: rest => if k = key then (k, f v) :: rest else (k, v) :: adjust key f rest

/-- Sets the value of a key: in place of the entry that has it, else in front of the first
greater key. -/
def insert [LT κ] [DecidableLT κ] (key : κ) (value : ν) : List (κ × ν) → List (κ × ν)
  | [] => [(key, value)]
  | (k, v) :: rest =>
    if key = k then (key, value) :: rest
    else if key < k then (key, value) :: (k, v) :: rest
    else (k, v) :: insert key value rest

/-- The map with these entries; of several entries with one key the last one counts. -/
def ofList [LT κ] [DecidableLT κ] (entries : List (κ × ν)) : List (κ × ν) :=
  entries.foldl (fun acc e => insert e.1 e.2 acc) []

@[simp] theorem find?_nil (key : κ) : find? key ([] : List (κ × ν)) = none := rfl

theorem find?_insert [LT κ] [DecidableLT κ] (key other : κ) (value : ν)
    (entries : List (κ × ν)) :
    find? other (insert key value entries) =
      if key = other then some value else find? other entries := by
  induction entries with
  | nil => simp [insert, find?]
  | cons e rest ih =>
    obtain ⟨k, v⟩ := e
    by_cases hk : key = k
    · subst hk; by_cases ho : key = other <;> simp [insert, find?, ho]
    · by_cases hlt : key < k
      · simp [insert, find?, hk, hlt]
      · by_cases ho : k = other
        · subst ho; simp [insert, find?, hk, hlt]
        · simp [insert, find?, hk, hlt, ho, ih]

theorem find?_erase (key other : κ) (entries : List (κ × ν)) :
    find? other (erase key entries) = if key = other then none else find? other entries := by
  induction entries with
  | nil => simp [erase]
  | cons e rest ih =>
    obtain ⟨k, v⟩ := e
    by_cases hk : k = key
    · subst hk
      by_cases ho : k = other
      · subst ho; simpa [erase] using ih
      · simp [erase, find?, ih, ho]
    · by_cases ho : k = other
      · subst ho; simp [erase, find?, hk, Ne.symm hk]
      · simp [erase, find?, hk, ho, ih]

theorem mem_of_find? {key : κ} {value : ν} {entries : List (κ × ν)}
    (h : find? key entries = some value) : (key, value) ∈ entries := by
  induction entries with
  | nil => simp at h
  | cons e rest ih =>
    obtain ⟨k, v⟩ := e
    by_cases hk : k = key
    · simp_all [find?]
    · simp [find?, hk] at h
      exact List.mem_cons_of_mem _ (ih h)

theorem length_adjust (key : κ) (f : ν → ν) (entries : List (κ × ν)) :
    (adjust key f entries).length = entries.length := by
  induction entries with
  | nil => rfl
  | cons e rest ih =>
    obtain ⟨k, v⟩ := e
    by_cases hk : k = key <;> simp [adjust, hk, ih]

theorem length_erase_le (key : κ) (entries : List (κ × ν)) :
    (erase key entries).length ≤ entries.length := by
  induction entries with
  | nil => simp [erase]
  | cons e rest ih =>
    obtain ⟨k, v⟩ := e
    by_cases hk : k = key <;> simp [erase, hk] <;> omega

theorem length_erase_lt {key : κ} {value : ν} {entries : List (κ × ν)}
    (h : find? key entries = some value) : (erase key entries).length < entries.length := by
  induction entries with
  | nil => simp at h
  | cons e rest ih =>
    obtain ⟨k, v⟩ := e
    by_cases hk : k = key
    · have := length_erase_le key rest
      simp [erase, hk]
      omega
    · simp only [find?, hk, if_false] at h
      have := ih h
      simp [erase, hk]
      omega

theorem find?_adjust (key other : κ) (f : ν → ν) (entries : List (κ × ν)) :
    find? other (adjust key f entries) =
      if key = other then (find? other entries).map f else find? other entries := by
  induction entries with
  | nil => simp [adjust]
  | cons e rest ih =>
    obtain ⟨k, v⟩ := e
    by_cases hk : k = key
    · subst hk
      by_cases ho : k = other <;> simp [adjust, find?, ho]
    · by_cases ho : k = other
      · subst ho
        simp [adjust, find?, hk, Ne.symm hk]
      · simp [adjust, find?, hk, ho, ih]

end

end Keyed
end CampaignControl
