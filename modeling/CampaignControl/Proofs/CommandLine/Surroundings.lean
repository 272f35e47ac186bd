import CampaignControl.CommandLine.Directory
import CampaignControl.Proofs.Keyed

/-!
# The surroundings of the program

A view tells of the surroundings what matters to the program: which file a path names and what is in
it, what the program can read and write, and what has been printed. A host serves a view
(`Host.Serves`) if it does what is expected of files and of an output: reading changes nothing,
writing sets one file and nothing else, and printing adds to what has been printed. Trees of files
do (`Directory.serves`).
-/

namespace CampaignControl
namespace CommandLine

/-- What can be told of the surroundings in each of their states. -/
structure View (σ File : Type) where
  /-- The file that a path names. It need not be there yet. -/
  file? : σ → String → Option File
  /-- What is in a file that is there. -/
  contents? : σ → File → Option ByteArray
  /-- Whether the program is able to read the file of a path. -/
  CanRead : σ → String → Prop
  /-- Whether the program is able to write a text to the file of a path, or to make it with that. -/
  CanWrite : σ → String → String → Prop
  printed : σ → String

namespace View

variable {σ File : Type} (view : View σ File) (s s' : σ)

/-- The file of the path can be read, and this text is in it. -/
def Holds (path text : String) : Prop :=
  view.CanRead s path ∧ ∃ file bytes, view.file? s path = some file ∧
    view.contents? s file = some bytes ∧ String.fromUTF8? bytes = some text

/-- Nothing has changed but that this text has been printed. -/
structure Printed (text : String) : Prop where
  printed : view.printed s' = view.printed s ++ text
  contents? : view.contents? s' = view.contents? s
  file? : view.file? s' = view.file? s

/-- Nothing has changed but that this text is in the file. -/
structure Wrote (file : File) (text : String) : Prop where
  printed : view.printed s' = view.printed s
  written : view.contents? s' file = some text.toUTF8
  others : ∀ other, other ≠ file → view.contents? s' other = view.contents? s other
  file? : view.file? s' = view.file? s

end View

/-- What a host does for the program is what a view tells. -/
structure Host.Serves {σ File : Type} (host : Host (StateM σ)) (view : View σ File) : Prop where
  reads {s : σ} {path text : String} : view.Holds s path text →
    (host.readFile path).run s = pure (some text, s)
  withholds {s : σ} {path : String} : (∀ text, ¬ view.Holds s path text) →
    (host.readFile path).run s = pure (none, s)
  writes {s : σ} {path text : String} : view.CanWrite s path text →
    ∃ file s', view.file? s path = some file ∧
      (host.writeFile path text).run s = pure (true, s') ∧ view.Wrote s s' file text
  refuses {s : σ} {path text : String} : ¬ view.CanWrite s path text →
    ∃ s', (host.writeFile path text).run s = pure (false, s')
  prints (s : σ) (text : String) :
    ∃ s', (host.print text).run s = pure ((), s') ∧ view.Printed s s' text

/-! ## Directories -/

namespace Directory

/-- What is in a tree of files. Every file can be read. One can be written where it lies in a
directory that there is, and is no directory itself. -/
def view : View Directory (List String) where
  file? d path := d.locate? path
  contents? d file := Keyed.find? file d.files
  CanRead _ _ := True
  CanWrite d path _ :=
    ∃ file, d.locate? path = some file ∧ d.hasDirectory file.dropLast ∧ d.hasDirectory file = false
  printed d := d.printed

variable {d d' : Directory} {path text : String} {file : List String}

/-- The directories are the root, the folders with all that they are in, and what files are in. -/
theorem hasDirectory_iff {place : List String} :
    d.hasDirectory place ↔
      place = [] ∨ (∃ folder ∈ d.folders, place <+: folder) ∨
        ∃ file ∈ d.files.map Prod.fst, place <+: file ∧ place.length < file.length := by
  simp only [hasDirectory, Bool.or_eq_true, List.isEmpty_iff, List.any_eq_true, Bool.and_eq_true,
    decide_eq_true_eq, beq_iff_eq, or_assoc]
  refine or_congr Iff.rfl (or_congr ?_ ?_)
  · simp only [List.prefix_iff_eq_take, eq_comm]
  · constructor
    · rintro ⟨⟨file, bytes⟩, hfile, hlt, heq⟩
      exact ⟨file, List.mem_map_of_mem hfile, List.prefix_iff_eq_take.2 heq.symm, hlt⟩
    · rintro ⟨_, hfile, hprefix, hlt⟩
      obtain ⟨entry, hentry, rfl⟩ := List.mem_map.1 hfile
      exact ⟨entry, hentry, hlt, (List.prefix_iff_eq_take.1 hprefix).symm⟩

theorem follow?_congr (h : ∀ place, d'.hasDirectory place = d.hasDirectory place)
    (place parts : List String) : d'.follow? place parts = d.follow? place parts := by
  induction parts generalizing place with
  | nil => rfl
  | cons part parts ih => simp only [follow?, ih, h]

/-- Where the directories are the same, paths name the same files. -/
theorem locate?_congr (h : ∀ place, d'.hasDirectory place = d.hasDirectory place)
    (path : String) : d'.locate? path = d.locate? path := by
  simp only [locate?, follow?_congr h]

/-- A new file in a directory that there is makes no directory. -/
theorem hasDirectory_append (bytes : ByteArray) (hplace : d.hasDirectory file.dropLast)
    (place : List String) :
    { d with files := d.files ++ [(file, bytes)] : Directory }.hasDirectory place =
      d.hasDirectory place := by
  rw [Bool.eq_iff_iff, hasDirectory_iff, hasDirectory_iff]
  simp only [List.map_append, List.map_singleton, List.mem_append, List.mem_singleton]
  constructor
  · rintro (rfl | hfolder | ⟨other, hother | rfl, hprefix, hlength⟩)
    · exact .inl rfl
    · exact .inr (.inl hfolder)
    · exact .inr (.inr ⟨other, hother, hprefix, hlength⟩)
    -- a directory above the new file is the one that it lies in, or above that
    · have hle : place.length ≤ other.dropLast.length := by
        rw [List.length_dropLast]
        omega
      have habove : place <+: other.dropLast :=
        List.prefix_of_prefix_length_le hprefix (List.dropLast_prefix _) hle
      rcases hasDirectory_iff.1 hplace with hroot | ⟨folder, hfolder, hin⟩ |
        ⟨known, hknown, hbelow, hlt⟩
      · exact .inl (List.prefix_nil.1 (hroot ▸ habove))
      · exact .inr (.inl ⟨folder, hfolder, habove.trans hin⟩)
      · exact .inr (.inr ⟨known, hknown, habove.trans hbelow, by omega⟩)
  · rintro (rfl | hfolder | ⟨other, hother, h⟩)
    · exact .inl rfl
    · exact .inr (.inl hfolder)
    · exact .inr (.inr ⟨other, .inl hother, h⟩)

/-- A tree with the same directories in which one file has been set. -/
theorem view_wrote (hprinted : d'.printed = d.printed)
    (hfind : ∀ other, Keyed.find? other d'.files =
      if file = other then some text.toUTF8 else Keyed.find? other d.files)
    (hplaces : ∀ place, d'.hasDirectory place = d.hasDirectory place) :
    view.Wrote d d' file text where
  printed := hprinted
  written := (hfind file).trans (if_pos rfl)
  others other hne := (hfind other).trans (if_neg hne.symm)
  file? := funext (locate?_congr hplaces)

theorem writeFile_of_canWrite (h : view.CanWrite d path text) :
    ∃ file d', d.locate? path = some file ∧ writeFile path text d = (true, d') ∧
      view.Wrote d d' file text := by
  obtain ⟨file, hlocate, hplace, hfile⟩ := h
  simp only [writeFile, hlocate, hplace, hfile, Bool.not_false, Bool.and_self, if_true]
  split
  · next hknown =>
    refine ⟨file, _, rfl, rfl, view_wrote rfl (fun other => ?_) fun place => ?_⟩
    · rw [Keyed.find?_adjust]
      split
      · next heq =>
        subst heq
        obtain ⟨bytes, hbytes⟩ := Option.isSome_iff_exists.1 hknown
        rw [hbytes, Option.map_some]
      · rfl
    · rw [Bool.eq_iff_iff, hasDirectory_iff, hasDirectory_iff, Keyed.map_fst_adjust]
  · next hnew =>
    refine ⟨file, _, rfl, rfl, view_wrote rfl (fun other => ?_) (hasDirectory_append _ hplace)⟩
    have hnone : Keyed.find? file d.files = none := by
      simpa [Keyed.contains] using hnew
    rw [Keyed.find?_append]
    split
    · next heq => subst heq; simp [hnone]
    · next hne => simp [hne]

theorem writeFile_of_not_canWrite (h : ¬ view.CanWrite d path text) :
    writeFile path text d = (false, d) := by
  unfold writeFile
  split
  · rfl
  · next file hlocate =>
    rw [if_neg]
    simp only [Bool.and_eq_true, Bool.not_eq_true']
    exact fun ⟨hplace, hfile⟩ => h ⟨file, hlocate, hplace, hfile⟩

theorem holds_iff : view.Holds d path text ↔ d.readFile path = some text := by
  simp only [View.Holds, view, readFile, Option.bind_eq_bind, Option.bind_eq_some_iff, true_and]
  constructor
  · rintro ⟨file, bytes, hfile, h⟩
    exact ⟨file, hfile, bytes, h⟩
  · rintro ⟨file, hfile, bytes, h⟩
    exact ⟨file, bytes, hfile, h⟩

theorem run_readFile (path : String) (d : Directory) :
    (host.readFile path).run d = pure (d.readFile path, d) := rfl

theorem serves : host.Serves view where
  reads h := by rw [run_readFile, holds_iff.1 h]
  withholds {d path} h := by
    have hnone : d.readFile path = none :=
      Option.eq_none_iff_forall_ne_some.2 fun text hread => h text (holds_iff.2 hread)
    rw [run_readFile, hnone]
  writes h := writeFile_of_canWrite h
  refuses {d path text} h := ⟨d, writeFile_of_not_canWrite h⟩
  prints d text :=
    have hplaces : ∀ place, { d with printed := d.printed ++ text : Directory }.hasDirectory place =
        d.hasDirectory place := fun _ => rfl
    ⟨_, rfl, ⟨rfl, rfl, funext (locate?_congr hplaces)⟩⟩

end Directory
end CommandLine
end CampaignControl
