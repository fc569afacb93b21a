import Mathlib.Data.List.Forall2
import Mathlib.Data.List.TakeWhile
import Abnf.Fault
import Abnf.Files
import Abnf.Path

/-!
# Files in a directory

A path leads to one name, if it leads to a file at all, and whether it does can be told from the path.
So what is written under one name is read again by every path that leads to this name, and other names
keep what they have.

* `Path.replaces_withExtension`: what replacing the extension of a file name does.
* `Directory.Names`: the name that a path leads to.
* `Directory.read_put`, `Directory.read_put_of_ne`: what is read after a file has been put into a
  directory.
* `Directory.readTexts_eq_ok_iff`: what reading several files finds.
-/

namespace Abnf

/-! ## Paths -/

namespace Path

variable {mark c : Char} {path front name : List Char}

theorem upToLast_append_behindLast (mark : Char) (path : List Char) :
    upToLast mark path ++ behindLast mark path = path := by
  rw [upToLast, behindLast, ← List.reverse_append, List.takeWhile_append_dropWhile,
    List.reverse_reverse]

theorem not_mem_behindLast : mark ∉ behindLast mark path := by
  intro h
  have hne := List.mem_takeWhile_imp (List.mem_reverse.1 h)
  simp at hne

theorem eq_of_mem_getLast?_upToLast (h : c ∈ (upToLast mark path).getLast?) : c = mark := by
  rw [upToLast, List.getLast?_reverse] at h
  have hnot := List.head?_dropWhile_not (· != mark) path.reverse
  rw [Option.mem_def.1 h] at hnot
  simpa using hnot

/-- What stands behind the last mark is known by what it is: it has no mark, and begins the path or
follows a mark. -/
theorem behindLast_append (hname : mark ∉ name) (hfront : ∀ c ∈ front.getLast?, c = mark) :
    behindLast mark (front ++ name) = name := by
  have hall : ∀ c ∈ name.reverse, (c != mark) = true := by
    intro c hc
    simp only [bne_iff_ne]
    rintro rfl
    exact hname (List.mem_reverse.1 hc)
  rw [behindLast, List.reverse_append, List.takeWhile_append_of_pos hall]
  rcases List.eq_nil_or_concat front with rfl | ⟨init, c, rfl⟩
  · simp
  · obtain rfl : c = mark := hfront c (by simp)
    simp

/-- Up to its last dot, a name has no dots or ends in one. -/
theorem upToLast_dot_eq (name : List Char) :
    upToLast '.' name = [] ∨ upToLast '.' name = (upToLast '.' name).dropLast ++ ['.'] := by
  rcases List.eq_nil_or_concat (upToLast '.' name) with hnil | ⟨init, c, hconcat⟩
  · exact .inl hnil
  · have hmem : c ∈ (upToLast '.' name).getLast? := by simp [hconcat]
    obtain rfl := eq_of_mem_getLast?_upToLast hmem
    exact .inr (by simp [hconcat])

/-- The name of a file is its stem with the extension behind it, if there is one. -/
theorem exists_extension (hname : name ≠ []) :
    ∃ old : Option (List Char), name = stem name ++ (old.map ('.' :: ·)).getD [] ∧ stem name ≠ [] ∧
      (∀ e ∈ old, '.' ∉ e) ∧ (old = none → '.' ∉ (stem name).tail) := by
  have hsplit := upToLast_append_behindLast '.' name
  have hplain : '.' ∉ behindLast '.' name := not_mem_behindLast
  unfold stem
  split
  · rename_i hfront
    refine ⟨none, by simp, hname, by simp, fun _ hdot => hplain ?_⟩
    rcases upToLast_dot_eq name with hnil | hdots
    · rw [hnil, List.nil_append] at hsplit
      rw [hsplit]
      exact List.mem_of_mem_tail hdot
    · rw [hdots, hfront] at hsplit
      rwa [← hsplit] at hdot
  · rename_i c cs hfront
    refine ⟨some (behindLast '.' name), ?_, by simp, by simpa using hplain, by simp⟩
    rcases upToLast_dot_eq name with hnil | hdots
    · simp [hnil] at hfront
    · rw [hdots, hfront] at hsplit
      simpa using hsplit.symm

/-- A path taken apart: the way to the directory, slash included, the name of the file without its
extension, and the extension, if there is one. A dot that begins the name begins no extension. -/
structure Parts (path parent stem : List Char) (extension : Option (List Char)) : Prop where
  path_eq : path = parent ++ (stem ++ (extension.map ('.' :: ·)).getD [])
  parent_ends : ∀ c ∈ parent.getLast?, c = '/'
  not_mem_name : '/' ∉ stem ++ (extension.map ('.' :: ·)).getD []
  stem_ne_nil : stem ≠ []
  not_mem_extension : ∀ e ∈ extension, '.' ∉ e
  not_mem_tail : extension = none → '.' ∉ stem.tail

/-- The second path is the first one with another extension in place of its own, or added to it. -/
def Replaces (extension path path' : String) : Prop :=
  ∃ parent stem old, Parts path.toList parent stem old ∧
    path'.toList = parent ++ (stem ++ '.' :: extension.toList)

/-- Only a dot would stand before the extension: then the path that comes out ends in dots. -/
theorem behindLast_withExtension (extension : String) {path : String}
    (h : stem (behindLast '/' path.toList) = ['.']) :
    behindLast '/' (withExtension extension path).toList = ['.'] ∨
      behindLast '/' (withExtension extension path).toList = ['.', '.'] := by
  have hdots : upToLast '.' (behindLast '/' path.toList) = ['.'] ∨
      upToLast '.' (behindLast '/' path.toList) = ['.', '.'] := by
    unfold stem at h
    split at h
    · exact .inl (by simp [h, upToLast])
    · rename_i hfront
      rcases upToLast_dot_eq (behindLast '/' path.toList) with hnil | hdots
      · simp [hnil] at hfront
      · rw [hfront, h] at hdots
        exact .inr hdots
  rw [withExtension, if_pos h, String.toList_ofList]
  have hends : ∀ c ∈ (upToLast '/' path.toList).getLast?, c = '/' :=
    fun c => eq_of_mem_getLast?_upToLast
  rcases hdots with hdots | hdots
  · exact .inl (by rw [hdots, behindLast_append (by decide) hends])
  · exact .inr (by rw [hdots, behindLast_append (by decide) hends])

/-- The extension is replaced, unless the path has no file name or what comes out leads to a
directory. -/
theorem replaces_withExtension {extension path : String} (hname : behindLast '/' path.toList ≠ [])
    (hdot : behindLast '/' (withExtension extension path).toList ≠ ['.'])
    (hdots : behindLast '/' (withExtension extension path).toList ≠ ['.', '.']) :
    Replaces extension path (withExtension extension path) := by
  obtain ⟨old, hold, hstem, hplain, htail⟩ := exists_extension hname
  refine ⟨upToLast '/' path.toList, stem (behindLast '/' path.toList), old,
    ⟨?_, fun c => eq_of_mem_getLast?_upToLast, ?_, hstem, hplain, htail⟩, ?_⟩
  · rw [← hold, upToLast_append_behindLast]
  · rw [← hold]
    exact not_mem_behindLast
  · rw [withExtension, if_neg fun h => ?_]
    · simp
    · rcases behindLast_withExtension extension h with h | h
      · exact hdot h
      · exact hdots h

end Path

/-! ## Names -/

namespace Text

/-- The last piece of a text has no separator, and begins the text or follows one. -/
theorem exists_last_splitChars (separator : Char) (cs : List Char) :
    ∃ init front last, splitChars separator cs = init ++ [last] ∧ cs = front ++ last ∧
      separator ∉ last ∧ (∀ c ∈ front.getLast?, c = separator) ∧ (init = [] ↔ front = []) := by
  induction cs with
  | nil => exact ⟨[], [], [], rfl, rfl, by simp, by simp, by simp⟩
  | cons c cs ih =>
    obtain ⟨init, front, last, hsplit, rfl, hplain, hends, hempty⟩ := ih
    by_cases hc : c = separator
    · refine ⟨[] :: init, c :: front, last, ?_, rfl, hplain, ?_, by simp⟩
      · rw [splitChars, if_pos hc, hsplit, List.cons_append]
      · rw [List.getLast?_cons]
        cases hlast : front.getLast? with
        | none => simp [hc]
        | some d => simpa [hlast] using hends
    · cases init with
      | nil =>
        obtain rfl := hempty.1 rfl
        rw [List.nil_append] at hsplit
        refine ⟨[], [], c :: last, ?_, rfl, ?_, by simp, by simp⟩
        · simp [splitChars, hc, hsplit]
        · simp [hplain, Ne.symm hc]
      | cons piece pieces =>
        have hne : front ≠ [] := fun h => by simp [h] at hempty
        refine ⟨(c :: piece) :: pieces, c :: front, last, ?_, rfl, hplain, ?_, by simp⟩
        · simp [splitChars, hc, hsplit]
        · simpa [List.getLast?_cons_of_ne_nil hne] using hends

/-- The last piece of a text is what stands behind the last separator. -/
theorem getLast?_split (separator : Char) (text : String) :
    (split separator text).getLast? =
      some (String.ofList (Path.behindLast separator text.toList)) := by
  obtain ⟨init, front, last, hsplit, htext, hplain, hends, -⟩ :=
    exists_last_splitChars separator text.toList
  rw [split, hsplit, htext, Path.behindLast_append hplain hends]
  simp

end Text

namespace Directory

variable {directory : Directory} {base base' last path name other : String}
  {contents : Array UInt8}

/-- What leads to a name ends in it, and the name is not that of a directory. -/
theorem getLast?_of_follow {parts : List String} (h : follow base parts = .name base' last) :
    parts.getLast? = some last ∧ last ≠ "" ∧ last ≠ "." ∧ last ≠ ".." := by
  fun_induction follow base parts with
  | case1 => cases h
  | case2 base rest ih | case3 base rest ih | case4 base rest ih =>
    obtain ⟨hlast, hne⟩ := ih h
    exact ⟨by rw [List.getLast?_cons, hlast]; rfl, hne⟩
  | case5 base name hempty hdot hdots =>
    cases h
    exact ⟨rfl, hempty, hdot, hdots⟩
  | case6 => cases h

/-- The path leads to the file with the name, if there is one. -/
def Names (path name : String) : Prop :=
  pathError? path = none ∧ ∃ base last, locate path = .name base last ∧ nameError? last = none ∧
    base ++ last = name

theorem Names.unique (h : Names path name) (h' : Names path other) : name = other := by
  obtain ⟨-, base, last, hlocate, -, rfl⟩ := h
  obtain ⟨-, base', last', hlocate', -, rfl⟩ := h'
  cases hlocate.symm.trans hlocate'
  rfl

/-- A path that leads to a name has it behind its last slash. -/
theorem Names.exists_behindLast (h : Names path name) :
    ∃ last, Path.behindLast '/' path.toList = String.toList last ∧
      last ≠ "" ∧ last ≠ "." ∧ last ≠ ".." := by
  obtain ⟨-, base, last, hlocate, -, -⟩ := h
  obtain ⟨hlast, hne⟩ := getLast?_of_follow hlocate
  rw [Text.getLast?_split, Option.some.injEq] at hlast
  exact ⟨last, by rw [← hlast, String.toList_ofList], hne⟩

theorem nameToRead_eq_ok_iff : directory.nameToRead path = .ok name ↔ Names path name := by
  unfold nameToRead
  split
  · rename_i hpath
    simp [Names, hpath]
  · rename_i hlocate
    simp [Names, hlocate]
  · rename_i base last hpath hlocate
    cases hname : nameError? last with
    | some error => simp [Names, hlocate, hname]
    | none =>
      refine ⟨fun h => ⟨hpath, base, last, hlocate, hname, Except.ok.inj h⟩, ?_⟩
      rintro ⟨-, base', last', hlocate', -, rfl⟩
      cases hlocate.symm.trans hlocate'
      rfl
  · rename_i hlocate
    simp [Names, hlocate]

theorem nameToWrite_eq_ok_iff : directory.nameToWrite path = .ok name ↔ Names path name := by
  unfold nameToWrite
  split
  · rename_i hlocate
    simp [Names, hlocate]
  · exact nameToRead_eq_ok_iff

/-! ## Reading and writing -/

@[simp] theorem get?_put (directory : Directory) (name : String) (contents : Array UInt8) :
    (directory.put name contents).get? name = some contents := by
  rw [put, get?, List.lookup_append, List.lookup_eq_none_iff.2 fun file hfile => ?_]
  · simp
  · simpa [bne_comm] using (List.mem_filter.1 hfile).2

theorem get?_put_of_ne (directory : Directory) (contents : Array UInt8) (h : other ≠ name) :
    (directory.put name contents).get? other = directory.get? other := by
  have hkept : ∀ files : List (String × Array UInt8),
      (files.filter (fun file => file.1 != name)).lookup other = files.lookup other := by
    intro files
    induction files with
    | nil => rfl
    | cons file files ih =>
      by_cases hfile : file.1 = name
      · have hother : (other == file.1) = false := by simp [hfile, h]
        rw [List.filter_cons_of_neg (by simp [hfile]), ih, List.lookup_cons, hother]
      · rw [List.filter_cons_of_pos (by simp [hfile]), List.lookup_cons, List.lookup_cons, ih]
  have hadded : [(name, contents)].lookup other = none := by simp [h]
  rw [put, get?, get?, List.lookup_append, hkept, hadded, Option.or_none]

theorem read_eq_of_names (h : Names path name) (directory : Directory) :
    directory.read path = (directory.get? name).elim (.error .missing) .ok := by
  rw [read, nameToRead_eq_ok_iff.2 h]
  simp only [bind, Except.bind]
  cases directory.get? name <;> rfl

theorem read_eq_ok_iff : directory.read path = .ok contents ↔
    ∃ name, Names path name ∧ directory.get? name = some contents := by
  constructor
  · intro h
    obtain ⟨name, hname, -⟩ := exists_of_bind_eq_ok h
    have hname := nameToRead_eq_ok_iff.1 hname
    rw [read_eq_of_names hname] at h
    cases hfound : directory.get? name with
    | none => simp [hfound] at h
    | some found =>
      simp only [hfound, Option.elim_some, Except.ok.injEq] at h
      exact ⟨name, hname, by rw [hfound, h]⟩
  · rintro ⟨name, hname, hfound⟩
    rw [read_eq_of_names hname, hfound, Option.elim_some]

theorem write_eq_ok_iff {after : Directory} : directory.write path contents = .ok after ↔
    ∃ name, Names path name ∧ after = directory.put name contents := by
  constructor
  · intro h
    obtain ⟨name, hname, h⟩ := exists_of_bind_eq_ok h
    exact ⟨name, nameToWrite_eq_ok_iff.1 hname, (Except.ok.inj h).symm⟩
  · rintro ⟨name, hname, rfl⟩
    rw [write, nameToWrite_eq_ok_iff.2 hname]
    rfl

/-- What has been written is read by the same path. -/
theorem read_put (h : Names path name) (directory : Directory) (contents : Array UInt8) :
    (directory.put name contents).read path = .ok contents :=
  read_eq_ok_iff.2 ⟨name, h, get?_put directory name contents⟩

/-- What is read under another name is not touched. -/
theorem read_put_of_ne (h : Names path other) (hne : other ≠ name) (directory : Directory)
    (contents : Array UInt8) : (directory.put name contents).read path = directory.read path := by
  rw [read_eq_of_names h, read_eq_of_names h, get?_put_of_ne directory contents hne]

/-! ## Reading several files -/

/-- What is read along the path is the text. -/
def Holds (directory : Directory) (path text : String) : Prop :=
  directory.read path = .ok text.toUTF8.data

theorem textOf_eq_ok_iff {bytes : Array UInt8} {text : String} :
    Files.textOf bytes = .ok text ↔ bytes = text.toUTF8.data := by
  unfold Files.textOf String.fromUTF8?
  by_cases hvalid : (ByteArray.mk bytes).IsValidUTF8
  · rw [dif_pos hvalid]
    constructor
    · intro h
      cases h
      rfl
    · rintro rfl
      rfl
  · rw [dif_neg hvalid]
    refine ⟨nofun, ?_⟩
    rintro rfl
    exact absurd text.isValidUTF8 hvalid

theorem bind_textOf_eq_ok_iff {text : String} :
    (directory.read path).bind Files.textOf = .ok text ↔ directory.Holds path text := by
  unfold Holds
  cases directory.read path with
  | error error => simp [Except.bind]
  | ok bytes => simp [Except.bind, textOf_eq_ok_iff]

/-- Reading one file more. -/
theorem readTexts_cons (directory : Directory) (path : String) (paths : List String) :
    operations.readTexts (path :: paths) directory =
      match (directory.read path).bind Files.textOf with
      | .error error => (.error (path, error), directory)
      | .ok text => ((operations.readTexts paths directory).1.map (text :: ·),
          (operations.readTexts paths directory).2) := by
  have hread : operations.readText path directory =
      ((directory.read path).bind Files.textOf, directory) := rfl
  rw [Files.readTexts]
  simp only [bind, StateT.bind, hread]
  cases (directory.read path).bind Files.textOf <;> rfl

/-- Reading files changes none. -/
theorem readTexts_snd (directory : Directory) (paths : List String) :
    (operations.readTexts paths directory).2 = directory := by
  induction paths with
  | nil => rfl
  | cons path paths ih =>
    rw [readTexts_cons]
    split
    · rfl
    · exact ih

/-- Several files are read if each of them holds a text. -/
theorem readTexts_eq_ok_iff {paths texts : List String} :
    (operations.readTexts paths directory).1 = .ok texts ↔
      List.Forall₂ directory.Holds paths texts := by
  induction paths generalizing texts with
  | nil =>
    rw [List.forall₂_nil_left_iff]
    exact ⟨fun h => (Except.ok.inj h).symm, fun h => congrArg Except.ok h.symm⟩
  | cons path paths ih =>
    rw [readTexts_cons, List.forall₂_cons_left_iff]
    cases htext : (directory.read path).bind Files.textOf with
    | error error =>
      refine ⟨nofun, ?_⟩
      rintro ⟨text, rest, hholds, -, -⟩
      rw [bind_textOf_eq_ok_iff.2 hholds] at htext
      cases htext
    | ok text =>
      have hholds := bind_textOf_eq_ok_iff.1 htext
      constructor
      · intro h
        obtain ⟨rest, hrest, rfl⟩ := exists_of_map_eq_ok h
        exact ⟨text, rest, hholds, ih.1 hrest, rfl⟩
      · rintro ⟨text', rest, hholds', hrest, rfl⟩
        rw [bind_textOf_eq_ok_iff.2 hholds', Except.ok.injEq] at htext
        subst htext
        simp only [ih.2 hrest]
        rfl

end Directory

end Abnf
