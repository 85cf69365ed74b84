import WorkQueue.Proofs.Files.Directories

/-!
# Files that can be read

A path whose file can be read goes through directories that are there (`reaches_of_read`), so it is
a path to that file for all that `Reaches` is good for: opening it makes no directory and no file.

* `walk_append`: who gets through all segments gets through the first ones.
* `SameBut.read`: where two trees differ in the bytes of one file, other files are read alike.
-/

namespace WorkQueue

namespace FileTree

variable {tree : FileTree} {path : String} {loc loc' : Location}

/-! ## Going through some of the segments -/

theorem walk_append {first second : List String} (h : tree.walk loc (first ++ second) = .ok loc') :
    ∃ mid, tree.walk loc first = .ok mid ∧ tree.walk mid second = .ok loc' := by
  induction first generalizing loc with
  | nil => exact ⟨loc, rfl, h⟩
  | cons segment rest ih =>
    rw [List.cons_append, walk] at h
    rw [walk]
    split at h
    · rename_i hv
      rw [if_pos hv]
      exact ih h
    · rename_i hv
      rw [if_neg hv]
      split at h
      · rename_i hup
        rw [if_pos hup]
        exact ih h
      · rename_i hup
        rw [if_neg hup]
        split at h
        · cases h
        · cases h
        · cases h
        · exact ih h

/-- What stands under the last name on a way that can be gone. -/
private theorem child?_of_walk {names : List String} {name : String} (hv : Path.isVoid name = false)
    (hup : name ≠ "..") (h : tree.walk loc (names ++ [name]) = .ok loc') :
    ∃ mid, tree.walk loc names = .ok mid ∧ tree.child? mid name = .ok (some .directory) := by
  obtain ⟨mid, hn, h⟩ := walk_append h
  refine ⟨mid, hn, ?_⟩
  rw [walk, hv, if_neg (by simp), if_neg hup] at h
  split at h
  · cases h
  · cases h
  · cases h
  · assumption

/-! ## The directories on the way -/

/-- What is known of a path whose file can be read. -/
private theorem find_file {bytes : Bytes} (h : tree.find path = .ok (loc, .file bytes)) :
    ∃ target name, tree.locate path = .ok target ∧ target.name = some name ∧
      target.slash = false ∧ loc = target.directory ++ [name] ∧
      ¬ nameLimit < name.utf8ByteSize ∧ tree.node? loc = some (.file bytes) := by
  simp only [find, bind, Except.bind] at h
  split at h
  · cases h
  rename_i target ht
  cases hn : target.name with
  | none => simp [hn, pure, Except.pure] at h
  | some name =>
    simp only [hn] at h
    split at h
    · cases h
    rename_i found hc
    unfold child? at hc
    split at hc
    · cases hc
    rename_i hlen
    have hc := Except.ok.inj hc
    cases found with
    | none => cases h
    | some node =>
      cases node with
      | directory => cases h
      | file old =>
        cases hs : target.slash with
        | true => simp [hs, throw, throwThe, MonadExceptOf.throw] at h
        | false =>
          simp only [hs, Bool.false_eq_true, if_false] at h
          cases h
          exact ⟨target, name, ht, hn, hs, rfl, hlen, hc⟩

/-- The way that is gone to the directory of a file, and the name that it ends with. -/
theorem walk_of_locate {target : Target} {name : String}
    (h : tree.locate path = .ok target) (hn : target.name = some name)
    (hs : target.slash = false) :
    '\x00' ∉ path.toList ∧ ¬ pathLimit < path.utf8ByteSize ∧
      (Path.segments path).getLast? = some name ∧
      tree.walk (Location.start path) (Path.segments path).dropLast = .ok target.directory := by
  unfold locate at h
  split at h
  · cases h
  rename_i hnul
  split at h
  · cases h
  split at h
  · cases h
  rename_i hlong
  refine ⟨hnul, hlong, ?_⟩
  simp only [] at h
  -- Without a slash behind the name no segment was left out.
  have hcore : ∀ core : List String, core <+: Path.segments path →
      decide (core.length < (Path.segments path).length) = false → core = Path.segments path := by
    intro core hp hlen
    exact hp.eq_of_length (Nat.le_antisymm hp.length_le (by simpa using hlen))
  have hprefix : ((Path.segments path).reverse.dropWhile (· == "")).reverse <+:
      Path.segments path := by
    have := List.reverse_prefix.mpr (List.dropWhile_suffix (l := (Path.segments path).reverse)
      (· == ""))
    rwa [List.reverse_reverse] at this
  split at h
  · cases h
    cases hn
  · rename_i last hlast
    split at h
    all_goals
      simp only [bind, Except.bind, pure, Except.pure] at h
      split at h
      · cases h
      rename_i hw
      cases h
    · cases hn
    · cases hn
      rw [hcore _ hprefix hs] at hw hlast
      exact ⟨hlast, hw⟩

/-- The path up to a name on the way to a file leads to a directory. -/
private theorem hasDirectory_upTo {n : Nat} (hnul : '\x00' ∉ path.toList)
    (hlong : ¬ pathLimit < path.utf8ByteSize) (hlen : n < (Path.segments path).length)
    (hvoid : Path.isVoid (Path.segments path)[n] = false)
    (hwalk : tree.walk (Location.start path) ((Path.segments path).take (n + 1)) = .ok loc) :
    tree.hasDirectory (Path.upTo path (n + 1)) = true := by
  obtain ⟨rest, hrest⟩ := Path.exists_append_upTo path (n + 1)
  have hsegments := Path.segments_upTo path (n := n + 1) (by omega)
  rw [← List.take_append_getElem hlen] at hsegments hwalk
  revert hvoid hwalk hsegments hrest
  generalize Path.upTo path (n + 1) = way
  generalize (Path.segments path)[n] = name
  generalize (Path.segments path).take n = names
  intro hvoid hwalk hrest hsegments
  have hname : name ≠ "" := by
    rintro rfl
    simp [Path.isVoid] at hvoid
  have hdot : name ≠ "." := by
    rintro rfl
    simp [Path.isVoid] at hvoid
  have hway : way ≠ "" := by
    rintro rfl
    have hone : Path.segments "" = [""] := by decide
    rw [hone] at hsegments
    have := congrArg List.getLast? hsegments
    simp at this
    exact hname this
  have hstart : Location.start path = Location.start way := by
    have hchars : way.toList ≠ [] := fun h => hway (String.toList_eq_nil_iff.mp h)
    obtain ⟨c, chars, hc⟩ := List.exists_cons_of_ne_nil hchars
    simp [Location.start, Path.isAbsolute, hrest, String.toList_append, hc]
  have hnul' : '\x00' ∉ way.toList := by
    intro h
    rw [hrest, String.toList_append] at hnul
    exact hnul (List.mem_append_left _ h)
  have hlong' : ¬ pathLimit < way.utf8ByteSize := by
    rw [hrest, String.utf8ByteSize_append] at hlong
    omega
  have hdrop : (name :: names.reverse).dropWhile (· == "") = name :: names.reverse :=
    List.dropWhile_cons_of_neg (by simpa using hname)
  rw [hstart] at hwalk
  by_cases hup : name = ".."
  · have hlocate : tree.locate way = .ok ⟨loc, none, false⟩ := by
      subst hup
      simp [locate, hnul', hway, hlong', hsegments, hdrop, hwalk, bind, Except.bind, pure,
        Except.pure]
    simp [hasDirectory, find, hlocate, bind, Except.bind, pure, Except.pure]
  · obtain ⟨mid, hmid, hc⟩ := child?_of_walk hvoid hup hwalk
    have hlocate : tree.locate way = .ok ⟨mid, some name, false⟩ := by
      simp [locate, hnul', hway, hlong', hsegments, hdrop, hmid, hup, hdot, bind, Except.bind,
        pure, Except.pure]
    simp [hasDirectory, find, hlocate, hc, bind, Except.bind, pure, Except.pure]

/-- A path whose file can be read reaches it. -/
theorem reaches_of_read {bytes : Bytes} (h : tree.read path = .ok bytes) :
    ∃ loc, Reaches tree path loc ∧ tree.bytes? loc = some bytes := by
  have hfind : ∃ loc, tree.find path = .ok (loc, .file bytes) := by
    simp only [read, bind, Except.bind] at h
    split at h
    · cases h
    rename_i found hf
    split at h
    · cases h
      exact ⟨_, hf⟩
    · cases h
  obtain ⟨loc, hfind⟩ := hfind
  obtain ⟨target, name, ht, hn, hs, hloc, hlen, hnode⟩ := find_file hfind
  obtain ⟨hnul, hlong, -, hwalk⟩ := walk_of_locate ht hn hs
  have hbytes := bytes?_eq_some.mpr hnode
  refine ⟨loc, ⟨fun way outer hw => ?_, ⟨target, name, ht, hn, hs, hloc, hlen⟩, ⟨bytes, hbytes⟩⟩,
    hbytes⟩
  have hmem : way ∈ (Path.ways path).dropLast := by
    rw [← List.mem_reverse, hw]
    exact List.mem_cons_self
  obtain ⟨n, hlt, hvoid, rfl⟩ := Path.mem_dropLast_ways hmem
  rw [List.dropLast_eq_take, ← List.take_append_drop (n + 1) ((Path.segments path).take _),
    List.take_take, Nat.min_eq_left (by omega)] at hwalk
  obtain ⟨mid, hmid, -⟩ := walk_append hwalk
  exact hasDirectory_upTo hnul hlong (by omega) hvoid hmid

theorem Reaches.read {bytes : Bytes} (h : Reaches tree path loc)
    (hb : tree.bytes? loc = some bytes) : tree.read path = .ok bytes := by
  obtain ⟨target, name, ht, hn, hs, rfl, hlen⟩ := h.located
  have hc : tree.child? target.directory name = .ok (some (.file bytes)) := by
    rw [child?, if_neg hlen, bytes?_eq_some.mp hb]
  simp [FileTree.read, find, ht, hn, hs, hc, bind, Except.bind, pure, Except.pure]

/-! ## Trees that differ in one file -/

/-- Two trees that differ in no more than the bytes of one file, which is in both. -/
structure SameBut (loc : Location) (tree tree' : FileTree) : Prop where
  others : ∀ l, l ≠ loc → tree'.node? l = tree.node? l
  file : ∃ bytes, tree.node? loc = some (.file bytes)
  file' : ∃ bytes, tree'.node? loc = some (.file bytes)

/-- What the files of paths hold, up to the first that cannot be read. -/
def readings (tree : FileTree) : List String → List (String × Except FileError Bytes)
  | [] => []
  | path :: rest =>
    match tree.read path with
    | .error cause => [(path, .error cause)]
    | .ok bytes => (path, .ok bytes) :: readings tree rest

/-- A path leads to a location. -/
def LeadsTo (tree : FileTree) (path : String) (loc : Location) : Prop :=
  ∃ node, tree.find path = .ok (loc, node)

namespace SameBut

variable {tree' : FileTree}

theorem trans {tree'' : FileTree} (h : SameBut loc tree tree') (h' : SameBut loc tree' tree'') :
    SameBut loc tree tree'' :=
  ⟨fun l hl => (h'.others l hl).trans (h.others l hl), h.file, h'.file'⟩

/-- The same stands under a name, or the file. -/
theorem child? (h : SameBut loc tree tree') (l : Location) (name : String) :
    tree'.child? l name = tree.child? l name ∨ l ++ [name] = loc ∧ ∃ bytes bytes',
      tree.child? l name = .ok (some (.file bytes)) ∧
        tree'.child? l name = .ok (some (.file bytes')) := by
  obtain ⟨bytes, hfile⟩ := h.file
  obtain ⟨bytes', hfile'⟩ := h.file'
  by_cases hl : l ++ [name] = loc
  · rw [FileTree.child?, FileTree.child?, hl, hfile, hfile']
    split
    · exact .inl rfl
    · exact .inr ⟨rfl, bytes, bytes', rfl, rfl⟩
  · exact .inl (by rw [FileTree.child?, FileTree.child?, h.others _ hl])

/-- No way goes through a file. -/
theorem walk (h : SameBut loc tree tree') (segments : List String) (l : Location) :
    tree'.walk l segments = tree.walk l segments := by
  induction segments generalizing l with
  | nil => rfl
  | cons segment rest ih =>
    rw [FileTree.walk, FileTree.walk]
    split
    · exact ih l
    · split
      · exact ih _
      · rcases h.child? l segment with hc | ⟨-, bytes, bytes', hc, hc'⟩
        · rw [hc]
          split
          · rfl
          · rfl
          · rfl
          · exact ih _
        · rw [hc, hc']

theorem locate (h : SameBut loc tree tree') (path : String) :
    tree'.locate path = tree.locate path := by
  simp only [FileTree.locate, h.walk]

theorem find (h : SameBut loc tree tree') {path : String} (hpath : ¬ tree.LeadsTo path loc) :
    tree'.find path = tree.find path := by
  rw [LeadsTo, not_exists] at hpath
  simp only [FileTree.find, h.locate path, bind, Except.bind] at hpath ⊢
  cases ht : tree.locate path with
  | error e => rfl
  | ok target =>
    cases hn : target.name with
    | none => simp only [hn]
    | some name =>
      rcases h.child? target.directory name with hc | ⟨hl, bytes, bytes', hc, hc'⟩
      · simp only [hn, hc]
      · by_cases hslash : target.slash = true
        · simp only [hn, hc, hc', if_pos hslash]
        · refine absurd ?_ (hpath (.file bytes))
          simp only [ht, hn, hc, if_neg hslash, hl]
          rfl

theorem read (h : SameBut loc tree tree') {path : String} (hpath : ¬ tree.LeadsTo path loc) :
    tree'.read path = tree.read path := by
  rw [FileTree.read, FileTree.read, h.find hpath]

end SameBut

end FileTree

end WorkQueue
