import AdDelivery.Core.Table

/-!
# Files that are only appended to

What was written to the end of a file keeps its place: later writes go behind it, or to other
files.
-/

namespace AdDelivery

open List

variable {α ι : Type*}

/-- The part of a file at an offset. -/
def segment (file : List α) (offset len : ℕ) : List α := (file.drop offset).take len

theorem segment_add (file : List α) (offset len len' : ℕ) : segment file offset (len + len') =
      segment file offset len ++ segment file (offset + len) len' := by
  unfold segment
  rw [take_add, drop_drop]

/-- The file has the data at an offset. -/
def Located (file : List α) (offset : ℕ) (data : List α) : Prop :=
  offset + data.length ≤ file.length ∧ segment file offset data.length = data

theorem located_append (file data : List α) : Located (file ++ data) file.length data := by
  constructor
  · rw [length_append]
  · rw [segment, drop_left, take_length]

variable {offset : ℕ} {data : List α}

theorem Located.append {file : List α} (h : Located file offset data) (extra : List α) :
    Located (file ++ extra) offset data := by
  obtain ⟨hle, hsegment⟩ := h
  constructor
  · rw [length_append]
    omega
  · rw [segment, drop_append_of_le_length (by omega), take_append_of_le_length]
    · exact hsegment
    · rw [length_drop]
      omega

/-- What lies within the beginning of a file is there. -/
theorem Located.of_append {file rest : List α} (h : Located (file ++ rest) offset data)
    (hle : offset + data.length ≤ file.length) : Located file offset data := by
  refine ⟨hle, ?_⟩
  have hsegment := h.2
  rwa [segment, drop_append_of_le_length (by omega), take_append_of_le_length] at hsegment
  rw [length_drop]
  omega

theorem located_append_iff {file : List α} {data data' : List α} :
    Located file offset (data ++ data') ↔
      Located file offset data ∧ Located file (offset + data.length) data' := by
  unfold Located
  rw [length_append, ← Nat.add_assoc, segment_add]
  constructor
  · rintro ⟨hle, hsegment⟩
    have hlen : (segment file offset data.length).length = data.length := by
      rw [segment, length_take, length_drop]
      omega
    obtain ⟨hleft, hright⟩ := append_inj hsegment hlen
    exact ⟨⟨by omega, hleft⟩, hle, hright⟩
  · rintro ⟨⟨-, hleft⟩, hle, hright⟩
    rw [hleft, hright]
    exact ⟨hle, rfl⟩

variable [DecidableEq ι]

/-- Open a file for appending; a file that does not exist is created. -/
def openFile (files : Table ι (List α)) (i : ι) : Table ι (List α) :=
  Finmap.insert i ((files.lookup i).getD []) files

def appendFile (files : Table ι (List α)) (i : ι) (data : List α) : Table ι (List α) :=
  Finmap.insert i ((files.lookup i).getD [] ++ data) files

/-- One of the files has the data at an offset. -/
def LocatedIn (files : Table ι (List α)) (i : ι) (offset : ℕ) (data : List α) : Prop :=
  ∃ file, files.lookup i = some file ∧ Located file offset data

variable (files : Table ι (List α)) (i : ι)

theorem openFile_eq : openFile files i = appendFile files i [] := by
  rw [openFile, appendFile, append_nil]

theorem getD_lookup_openFile :
    ((openFile files i).lookup i).getD [] = (files.lookup i).getD [] := by
  rw [openFile, Finmap.lookup_insert, Option.getD_some]

theorem appendFile_openFile (data : List α) :
    appendFile (openFile files i) i data = appendFile files i data := by
  rw [appendFile, getD_lookup_openFile, openFile, Finmap.insert_insert, appendFile]

theorem lookup_appendFile_self (data : List α) :
    (appendFile files i data).lookup i = some ((files.lookup i).getD [] ++ data) :=
  Finmap.lookup_insert _

theorem locatedIn_appendFile (data : List α) :
    LocatedIn (appendFile files i data) i ((files.lookup i).getD []).length data :=
  ⟨_, lookup_appendFile_self files i data, located_append _ data⟩

/-- No write moves what lies in the files. -/
theorem LocatedIn.appendFile {files : Table ι (List α)} {i : ι}
    (h : LocatedIn files i offset data) (j : ι) (extra : List α) :
    LocatedIn (appendFile files j extra) i offset data := by
  obtain ⟨file, hfile, hlocated⟩ := h
  rw [AdDelivery.appendFile]
  by_cases hij : i = j
  · subst hij
    refine ⟨file ++ extra, ?_, hlocated.append extra⟩
    rw [Finmap.lookup_insert, hfile, Option.getD_some]
  · exact ⟨file, (Finmap.lookup_insert_of_ne _ hij).trans hfile, hlocated⟩

end AdDelivery
