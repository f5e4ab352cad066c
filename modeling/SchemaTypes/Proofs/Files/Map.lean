import Mathlib.Data.List.Nodup
import SchemaTypes.Files.Compile

/-!
# Writing to a map

A `FileMap` is the simplest host: a map from paths to texts, in which every
directory can be made and every file can be written.  Files that are written one
after the other leave the map they are put into (`FileMap.carryOutAll_run`), and
where no two of them have one path each keeps its text (`FileMap.text?_of_mem`).
Everything else stays as it was (`FileMap.text?_of_notMem`).
-/

namespace SchemaTypes

/-- Files as a map from paths to texts. -/
structure FileMap where
  /-- The text of the file at a path. -/
  text? : String → Option String

namespace FileMap

/-- The map with another text at a path. -/
def write (files : FileMap) (path text : String) : FileMap :=
  ⟨fun other => if other = path then some text else files.text? other⟩

/-- The map after writes, one after the other. -/
def writeAll (files : FileMap) (ws : List FileWrite) : FileMap :=
  ws.foldl (fun files w => files.write w.path w.text) files

theorem writeAll_append (files : FileMap) (ws vs : List FileWrite) :
    files.writeAll (ws ++ vs) = (files.writeAll ws).writeAll vs := List.foldl_append

instance : Host (StateM FileMap) where
  readText path := fun files =>
    (match files.text? path with
      | some text => .ok text
      | none => .error "no such file", files)
  makeDirectories _ := fun files => (.ok (), files)
  writeText path text := fun files => (.ok (), files.write path text)
  milliseconds := pure 0

variable {files : FileMap}

/-! ## Carrying out -/

/-- All files are written. -/
theorem carryOutAll_run (ws : List FileWrite) (files : FileMap) :
    (FileWrite.carryOutAll ws : ExceptT Failure (StateM FileMap) Unit) files =
      (.ok (), files.writeAll ws) := by
  induction ws generalizing files with
  | nil => rfl
  | cons w rest ih => exact ih (files.write w.path w.text)

/-! ## Reading back -/

theorem text?_of_notMem {ws : List FileWrite} {path : String}
    (h : path ∉ ws.map FileWrite.path) : (files.writeAll ws).text? path = files.text? path := by
  induction ws generalizing files with
  | nil => rfl
  | cons w rest ih =>
    rw [List.map_cons, List.mem_cons, not_or] at h
    have hrest : ((files.write w.path w.text).writeAll rest).text? path =
        (files.write w.path w.text).text? path := ih h.2
    exact hrest.trans (if_neg h.1)

theorem text?_of_mem {ws : List FileWrite} {w : FileWrite} (hnodup : (ws.map FileWrite.path).Nodup)
    (h : w ∈ ws) : (files.writeAll ws).text? w.path = some w.text := by
  induction ws generalizing files with
  | nil => cases h
  | cons first rest ih =>
    rw [List.map_cons, List.nodup_cons] at hnodup
    rcases List.mem_cons.mp h with rfl | h
    · -- No later write touches the path.
      have hrest : ((files.write w.path w.text).writeAll rest).text? w.path =
          (files.write w.path w.text).text? w.path := text?_of_notMem hnodup.1
      exact hrest.trans (if_pos rfl)
    · exact ih hnodup.2 h

end FileMap

end SchemaTypes
