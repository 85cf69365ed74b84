import WorkQueue.Proofs.Files.Reading

/-!
# Files beside others

A path with another extension leads to a file in the directory to which the path itself leads, as
long as it is short enough: only the last name is another one.

* `Path.segments_withExtension`: the segments of such a path;
* `FileTree.locate_withExtension`, `FileTree.openFile_withExtension`: where it leads, and what
  opening a file there does or why it fails.
-/

namespace WorkQueue

namespace Path

/-- A file name with another extension. -/
def extended (name ext : String) : String := String.ofList (stem name.toList ++ ['.']) ++ ext

theorem toList_extended (name ext : String) :
    (extended name ext).toList = stem name.toList ++ '.' :: ext.toList := by
  rw [extended, String.toList_append, String.toList_ofList, List.append_assoc,
    List.singleton_append]

theorem mem_of_mem_stem {name : List Char} {c : Char} (h : c ∈ stem name) : c ∈ name := by
  simp only [stem] at h
  split at h
  · exact h
  · have hmem := List.mem_of_mem_drop (List.mem_reverse.mp h)
    exact List.mem_reverse.mp (List.dropWhile_subset _ hmem)

/-- A character other than a slash is in one of the parts of a text if it is in the text. -/
theorem exists_mem_split_iff {c : Char} (hc : c ≠ '/') (text : List Char) :
    (∃ part ∈ split text, c ∈ part) ↔ c ∈ text := by
  induction text with
  | nil => simp [split]
  | cons d text ih =>
    obtain ⟨first, others, hs⟩ := List.exists_cons_of_ne_nil (split_ne_nil text)
    by_cases hd : d = '/'
    · subst hd
      simp only [split_slash, List.mem_cons, exists_eq_or_imp, List.not_mem_nil, false_or, ih, hc]
    · rw [hs] at ih
      simp only [split_cons hd hs, List.mem_cons, exists_eq_or_imp, or_assoc] at ih ⊢
      rw [ih]

theorem mem_segments_iff {c : Char} (hc : c ≠ '/') (path : String) :
    (∃ segment ∈ segments path, c ∈ segment.toList) ↔ c ∈ path.toList := by
  rw [← exists_mem_split_iff hc, segments]
  constructor
  · rintro ⟨segment, hsegment, hmem⟩
    obtain ⟨part, hpart, rfl⟩ := List.mem_map.mp hsegment
    exact ⟨part, hpart, by rwa [String.toList_ofList] at hmem⟩
  · rintro ⟨part, hpart, hmem⟩
    exact ⟨_, List.mem_map_of_mem hpart, String.toList_ofList.symm ▸ hmem⟩

/-- A path leads from the root if nothing stands before its first slash. -/
theorem isAbsolute_eq (path : String) :
    isAbsolute path = ((segments path).dropLast.head? == some "") := by
  rw [isAbsolute, segments]
  cases path.toList with
  | nil => rfl
  | cons c rest =>
    obtain ⟨first, others, hs⟩ := List.exists_cons_of_ne_nil (split_ne_nil rest)
    by_cases hc : c = '/'
    · subst hc
      rw [split_slash, hs]
      rfl
    · have hslash : (c == '/') = false := beq_eq_false_iff_ne.mpr hc
      have hhead : (String.ofList (c :: first) == "") = false := by
        refine beq_eq_false_iff_ne.mpr fun h => ?_
        have hempty := congrArg String.toList h
        rw [String.toList_ofList] at hempty
        cases hempty
      rw [split_cons hc hs]
      cases others with
      | nil => exact hslash
      | cons next others =>
        show (c == '/') = (String.ofList (c :: first) == "")
        rw [hslash, hhead]

/-- Segments without slashes come apart again where they were put together. -/
theorem segments_ofSegments {parts : List String} (hne : parts ≠ [])
    (h : ∀ part ∈ parts, '/' ∉ part.toList) : segments (ofSegments parts) = parts := by
  have hid : String.ofList ∘ String.toList = id := funext fun _ => String.ofList_toList
  have hsplit : split (['/'].intercalate (parts.map String.toList)) = parts.map String.toList := by
    refine split_intercalate (by simpa using hne) fun part hp => ?_
    obtain ⟨text, htext, rfl⟩ := List.mem_map.mp hp
    exact h text htext
  rw [segments, ofSegments, String.toList_intercalate]
  show (split (['/'].intercalate (parts.map String.toList))).map String.ofList = parts
  rw [hsplit, List.map_map, hid, List.map_id]

theorem slash_not_mem_segment {path segment : String} (h : segment ∈ segments path) :
    '/' ∉ segment.toList := by
  rw [segments] at h
  obtain ⟨part, hpart, rfl⟩ := List.mem_map.mp h
  rw [String.toList_ofList]
  exact slash_not_mem_of_mem_split hpart

/-- Another extension changes the last name of a path. -/
theorem segments_withExtension {path ext name : String} (hext : '/' ∉ ext.toList)
    (hname : (segments path).getLast? = some name) :
    segments (withExtension path ext) = (segments path).dropLast ++ [extended name ext] := by
  have hmem : name ∈ segments path := List.mem_of_getLast? hname
  have hpath : withExtension path ext =
      ofSegments ((segments path).dropLast ++ [extended name ext]) := by
    rw [withExtension, List.getLastD_eq_getLast?, hname]
    rfl
  rw [hpath]
  refine segments_ofSegments (by simp) fun segment hsegment => ?_
  rcases List.mem_append.mp hsegment with hs | hs
  · exact slash_not_mem_segment (List.dropLast_subset _ hs)
  · rw [List.mem_singleton.mp hs, toList_extended, List.mem_append, List.mem_cons]
    rintro (hstem | hdot | hmem')
    · exact slash_not_mem_segment hmem (mem_of_mem_stem hstem)
    · cases hdot
    · exact hext hmem'

/-- A text that can stand behind the dot of a file name. -/
structure Suffix (ext : String) : Prop where
  ne_nil : ext.toList ≠ []
  dot : '.' ∉ ext.toList
  slash : '/' ∉ ext.toList
  nul : '\x00' ∉ ext.toList

/-- A name with an extension is a name and not one of the segments with a meaning of their own. -/
theorem extended_ne {ext : String} (h : Suffix ext) (name : String) :
    extended name ext ≠ "" ∧ extended name ext ≠ "." ∧ extended name ext ≠ ".." := by
  obtain ⟨front, c, hext⟩ : ∃ front c, ext.toList = front ++ [c] :=
    ⟨_, _, (List.dropLast_concat_getLast h.ne_nil).symm⟩
  have hc : c ≠ '.' := by
    rintro rfl
    exact h.dot (hext ▸ List.mem_append_right _ List.mem_cons_self)
  have hlast : (extended name ext).toList.getLast? = some c := by
    rw [toList_extended, hext, ← List.cons_append, ← List.append_assoc, List.getLast?_concat]
  refine ⟨?_, ?_, ?_⟩ <;> intro he <;> rw [he] at hlast
  · cases hlast
  · exact hc (Option.some.inj hlast).symm
  · exact hc (Option.some.inj hlast).symm

end Path

namespace FileTree

variable {tree : FileTree} {path ext name : String} {target : Target}

/-- A path with another extension leads to another name in the same directory. -/
theorem locate_withExtension (ht : tree.locate path = .ok target) (hn : target.name = some name)
    (hs : target.slash = false) (hext : Path.Suffix ext) :
    tree.locate (Path.withExtension path ext) =
      if pathLimit < (Path.withExtension path ext).utf8ByteSize then .error .nameTooLong
      else .ok ⟨target.directory, some (Path.extended name ext), false⟩ := by
  obtain ⟨hclean, -, hlast, hwalk⟩ := walk_of_locate ht hn hs
  obtain ⟨hvoid, hdot, hup⟩ := Path.extended_ne hext name
  have hsegments := Path.segments_withExtension hext.slash hlast
  have hstart : Location.start (Path.withExtension path ext) = Location.start path := by
    rw [Location.start, Location.start, Path.isAbsolute_eq, Path.isAbsolute_eq, hsegments,
      List.dropLast_concat]
  have hnul : '\x00' ∉ (Path.withExtension path ext).toList := by
    rw [← Path.mem_segments_iff (by decide)] at hclean ⊢
    rintro ⟨segment, hsegment, hmem⟩
    rw [hsegments, List.mem_append, List.mem_singleton] at hsegment
    rcases hsegment with hold | rfl
    · exact hclean ⟨segment, List.dropLast_subset _ hold, hmem⟩
    · rw [Path.toList_extended, List.mem_append, List.mem_cons] at hmem
      rcases hmem with hstem | hdot' | hmem
      · exact hclean ⟨name, List.mem_of_getLast? hlast, Path.mem_of_mem_stem hstem⟩
      · cases hdot'
      · exact hext.nul hmem
  have hempty : Path.withExtension path ext ≠ "" := fun he => by
    have hone : Path.segments "" = [""] := by decide
    rw [he, hone] at hsegments
    have := congrArg List.getLast? hsegments
    rw [List.getLast?_concat] at this
    exact hvoid (Option.some.inj this).symm
  have hdrop : (Path.extended name ext :: (Path.segments path).dropLast.reverse).dropWhile
      (· == "") = Path.extended name ext :: (Path.segments path).dropLast.reverse :=
    List.dropWhile_cons_of_neg (by simpa using hvoid)
  rw [← hstart] at hwalk
  by_cases hlong : pathLimit < (Path.withExtension path ext).utf8ByteSize
  · simp [locate, hnul, hempty, hlong]
  · simp [locate, hnul, hempty, hlong, hsegments, hdrop, hdot, hup, hwalk, bind, Except.bind, pure,
      Except.pure]

/-- What opening the file beside another one does, or why it fails. -/
theorem openFile_withExtension (ht : tree.locate path = .ok target) (hn : target.name = some name)
    (hs : target.slash = false) (hext : Path.Suffix ext) :
    openFile (Path.withExtension path ext) tree =
      if pathLimit < (Path.withExtension path ext).utf8ByteSize ∨
          nameLimit < (Path.extended name ext).utf8ByteSize then .error .nameTooLong tree
      else
        match tree.node? (target.directory ++ [Path.extended name ext]) with
        | none => .ok (target.directory ++ [Path.extended name ext])
            (tree.set (target.directory ++ [Path.extended name ext]) (.file []))
        | some (.file _) => .ok (target.directory ++ [Path.extended name ext]) tree
        | some .directory => .error .isADirectory tree := by
  have hlocate := locate_withExtension ht hn hs hext
  by_cases hlong : pathLimit < (Path.withExtension path ext).utf8ByteSize
  · rw [if_pos hlong] at hlocate
    simp [openFile, Runs.bind_apply, hlocate, hlong]
  · rw [if_neg hlong] at hlocate
    by_cases hname : nameLimit < (Path.extended name ext).utf8ByteSize
    · simp [openFile, Runs.bind_apply, hlocate, child?, hname]
    · -- The last step gives the location where there is a file now.
      cases hnode : tree.node? (target.directory ++ [Path.extended name ext]) with
      | none =>
        simp [openFile, Runs.bind_apply, hlocate, child?, hname, hlong, hnode]
        rfl
      | some node =>
        cases node with
        | file bytes => simp [openFile, Runs.bind_apply, hlocate, child?, hname, hlong, hnode]
        | directory =>
          simp [openFile, Runs.bind_apply, hlocate, child?, hname, hlong, hnode]
          rfl

end FileTree

end WorkQueue
