import WorkQueue.Files.Tree
import WorkQueue.Proofs.Files.Ways
import WorkQueue.Proofs.Runs

/-!
# Files in directories that stay

Where a path leads depends on the directories of a tree and not on its files: whatever is found in
one tree is found in every tree that has its directories (`KeepsDirectories`). So a file that was
opened once is found again (`Reaches.openFile`), however files have been written, made and moved in
the meantime.

`node?_set` and `node?_move` say what stands where after a change, `openFile_ok` what opening a
file does.
-/

namespace WorkQueue.FileTree

/-! ## What stands where -/

/-- A location that is a directory in every tree. -/
def Fixed (loc : Location) : Prop := loc = Location.root ∨ Location.isUpward loc = true

instance (loc : Location) : Decidable (Fixed loc) :=
  inferInstanceAs (Decidable (loc = Location.root ∨ Location.isUpward loc = true))

theorem node?_of_fixed {tree : FileTree} {loc : Location} (h : Fixed loc) :
    tree.node? loc = some .directory := if_pos h

theorem node?_of_not_fixed {tree : FileTree} {loc : Location} (h : ¬ Fixed loc) :
    tree.node? loc = tree.nodes.lookup loc := if_neg h

private theorem lookup_filter_ne {nodes : List (Location × Node)} {loc l : Location} (h : l ≠ loc) :
    (nodes.filter fun n => n.1 != loc).lookup l = nodes.lookup l := by
  induction nodes with
  | nil => rfl
  | cons n nodes ih =>
    obtain ⟨k, v⟩ := n
    by_cases hk : k = loc
    · have hl : (l == k) = false := by simpa [hk] using h
      rw [List.filter_cons_of_neg (by simpa using hk), ih, List.lookup_cons, hl]
    · rw [List.filter_cons_of_pos (by simpa using hk), List.lookup_cons, List.lookup_cons, ih]

private theorem lookup_filter_self (nodes : List (Location × Node)) (loc : Location) :
    (nodes.filter fun n => n.1 != loc).lookup loc = none := by
  rw [List.lookup_eq_none_iff]
  intro n hn
  have hne : n.1 ≠ loc := by simpa using (List.mem_filter.mp hn).2
  simpa using Ne.symm hne

theorem node?_set (tree : FileTree) (loc l : Location) (node : Node) :
    (tree.set loc node).node? l =
      if Fixed l then some .directory else if l = loc then some node else tree.node? l := by
  by_cases hf : Fixed l
  · rw [if_pos hf, node?_of_fixed hf]
  · rw [if_neg hf, node?_of_not_fixed hf, node?_of_not_fixed hf, set, List.lookup_cons]
    by_cases hl : l = loc
    · simp [hl]
    · have hb : (l == loc) = false := by simpa using hl
      rw [hb, if_neg hl]
      exact lookup_filter_ne hl

theorem node?_set_of_ne (tree : FileTree) {loc l : Location} (node : Node) (h : l ≠ loc) :
    (tree.set loc node).node? l = tree.node? l := by
  rw [node?_set, if_neg h]
  split
  · next hf => exact (node?_of_fixed hf).symm
  · rfl

theorem node?_remove (tree : FileTree) (loc l : Location) :
    (tree.remove loc).node? l =
      if Fixed l then some .directory else if l = loc then none else tree.node? l := by
  by_cases hf : Fixed l
  · rw [if_pos hf, node?_of_fixed hf]
  · rw [if_neg hf, node?_of_not_fixed hf, node?_of_not_fixed hf, remove]
    by_cases hl : l = loc
    · rw [if_pos hl, hl]
      exact lookup_filter_self _ _
    · rw [if_neg hl]
      exact lookup_filter_ne hl

theorem bytes?_eq_some {tree : FileTree} {loc : Location} {bytes : Bytes} :
    tree.bytes? loc = some bytes ↔ tree.node? loc = some (.file bytes) := by
  unfold bytes?
  split
  · rename_i b h
    rw [h]
    simp
  · rename_i h
    exact ⟨nofun, fun hb => absurd hb (h bytes)⟩

theorem bytes?_set_self {tree : FileTree} {loc : Location} {bytes : Bytes} (h : ¬ Fixed loc) :
    (tree.set loc (.file bytes)).bytes? loc = some bytes := by
  rw [bytes?_eq_some, node?_set, if_neg h, if_pos rfl]

/-- A file at a location that is not free for files cannot be. -/
theorem not_fixed_of_bytes? {tree : FileTree} {loc : Location} {bytes : Bytes}
    (h : tree.bytes? loc = some bytes) : ¬ Fixed loc := by
  intro hf
  rw [bytes?_eq_some, node?_of_fixed hf] at h
  cases h

/-- Moving a file leaves it at its new place only. -/
theorem node?_move {tree : FileTree} {source dest : Location} {bytes : Bytes}
    (h : tree.bytes? source = some bytes) (l : Location) :
    (tree.move source dest).node? l =
      if Fixed l then some .directory else if l = dest then some (.file bytes)
      else if l = source then none else tree.node? l := by
  rw [move, h, node?_set, node?_remove]
  split
  · rfl
  · split <;> rfl

/-! ## Trees with the directories of another -/

/-- Every directory of the one tree is one of the other. -/
def KeepsDirectories (tree tree' : FileTree) : Prop :=
  ∀ loc, tree.node? loc = some .directory → tree'.node? loc = some .directory

theorem KeepsDirectories.refl (tree : FileTree) : KeepsDirectories tree tree := fun _ h => h

theorem keepsDirectories_set {tree : FileTree} {loc : Location} (node : Node)
    (h : tree.node? loc ≠ some .directory) : KeepsDirectories tree (tree.set loc node) := by
  intro l hl
  rw [node?_set]
  split
  · rfl
  · split
    · rename_i he
      exact absurd (he ▸ hl) h
    · exact hl

section Kept

variable {tree tree' : FileTree}

theorem KeepsDirectories.child? (h : KeepsDirectories tree tree') {loc : Location} {name : String}
    (hc : tree.child? loc name = .ok (some .directory)) :
    tree'.child? loc name = .ok (some .directory) := by
  unfold FileTree.child? at hc ⊢
  split at hc
  · cases hc
  · rename_i hlen
    rw [if_neg hlen, h _ (Except.ok.inj hc)]

theorem KeepsDirectories.walk (h : KeepsDirectories tree tree') {loc loc' : Location}
    {segments : List String} (hw : tree.walk loc segments = .ok loc') :
    tree'.walk loc segments = .ok loc' := by
  induction segments generalizing loc with
  | nil => exact hw
  | cons segment rest ih =>
    rw [FileTree.walk] at hw ⊢
    split at hw
    · rename_i hv
      rw [if_pos hv]
      exact ih hw
    · rename_i hv
      rw [if_neg hv]
      split at hw
      · rename_i hup
        rw [if_pos hup]
        exact ih hw
      · rename_i hup
        rw [if_neg hup]
        split at hw
        · cases hw
        · cases hw
        · cases hw
        · rename_i hc
          rw [h.child? hc]
          exact ih hw

theorem KeepsDirectories.locate (h : KeepsDirectories tree tree') {path : String} {target : Target}
    (hl : tree.locate path = .ok target) : tree'.locate path = .ok target := by
  unfold FileTree.locate at hl ⊢
  split at hl
  · cases hl
  rename_i hnul
  rw [if_neg hnul]
  split at hl
  · cases hl
  rename_i hempty
  rw [if_neg hempty]
  split at hl
  · cases hl
  rename_i hlong
  rw [if_neg hlong]
  revert hl
  simp only []
  split
  · exact id
  · split
    all_goals
      intro hl
      simp only [bind, Except.bind] at hl ⊢
      split at hl
      · cases hl
      · rename_i hw
        rw [h.walk hw]
        exact hl

theorem KeepsDirectories.find (h : KeepsDirectories tree tree') {path : String} {loc : Location}
    (hf : tree.find path = .ok (loc, .directory)) : tree'.find path = .ok (loc, .directory) := by
  unfold FileTree.find at hf ⊢
  simp only [bind, Except.bind] at hf ⊢
  split at hf
  · cases hf
  · rename_i target ht
    rw [h.locate ht]
    simp only []
    cases hn : target.name with
    | none => simpa only [hn] using hf
    | some name =>
      simp only [hn] at hf ⊢
      split at hf
      · cases hf
      · rename_i found hc
        cases found with
        | none => cases hf
        | some node =>
          cases node with
          | file bytes =>
            simp only [] at hf
            split at hf <;> cases hf
          | directory =>
            rw [h.child? hc]
            exact hf

theorem KeepsDirectories.hasDirectory (h : KeepsDirectories tree tree') {path : String}
    (hd : tree.hasDirectory path = true) : tree'.hasDirectory path = true := by
  unfold FileTree.hasDirectory at hd ⊢
  split at hd
  · rename_i hf
    rw [h.find hf]
  · cases hd

end Kept

/-! ## Opening a file -/

theorem openFile_ok {path : String} {tree tree' : FileTree} {loc : Location}
    (h : openFile path tree = .ok loc tree') :
    ∃ target name, tree.locate path = .ok target ∧ target.name = some name ∧
      target.slash = false ∧ loc = target.directory ++ [name] ∧
      ¬ nameLimit < name.utf8ByteSize ∧
      ((tree.node? loc = none ∧ tree' = tree.set loc (.file [])) ∨
        ((∃ bytes, tree.bytes? loc = some bytes) ∧ tree' = tree)) := by
  simp only [openFile, Runs.bind_apply, Runs.get_apply] at h
  cases ht : tree.locate path with
  | error e => simp [ht] at h
  | ok target =>
    simp only [ht, Runs.ofExcept_ok] at h
    cases hn : target.name with
    | none => simp [hn] at h
    | some name =>
      simp only [hn] at h
      cases hs : target.slash with
      | true =>
        simp only [hs, if_true, Runs.bind_apply, Runs.throw_apply] at h
        cases h
      | false =>
        simp only [hs, Bool.false_eq_true, if_false] at h
        cases hc : tree.child? target.directory name with
        | error e => simp [hc, Runs.bind_apply] at h
        | ok found =>
          simp only [hc, Runs.bind_apply, Runs.ofExcept_ok] at h
          unfold child? at hc
          split at hc
          · cases hc
          rename_i hlen
          have hc := Except.ok.inj hc
          refine ⟨target, name, rfl, hn, hs, ?_⟩
          cases found with
          | none =>
            cases h
            exact ⟨rfl, hlen, .inl ⟨hc, rfl⟩⟩
          | some node =>
            cases node with
            | directory => cases h
            | file bytes =>
              cases h
              exact ⟨rfl, hlen, .inr ⟨⟨bytes, bytes?_eq_some.mpr hc⟩, rfl⟩⟩

/-- Opening makes a file where there is none, and otherwise changes nothing. -/
theorem openFile_keeps {path : String} {tree tree' : FileTree} {loc : Location}
    (h : openFile path tree = .ok loc tree') :
    KeepsDirectories tree tree' ∧ (∃ bytes, tree'.bytes? loc = some bytes) ∧
      ∀ l bytes, tree.bytes? l = some bytes → tree'.bytes? l = some bytes := by
  obtain ⟨target, name, -, -, -, -, -, hnode⟩ := openFile_ok h
  rcases hnode with ⟨hnone, rfl⟩ | ⟨hfile, rfl⟩
  · have hfree : ¬ Fixed loc := fun hf => by
      rw [node?_of_fixed hf] at hnone
      cases hnone
    refine ⟨keepsDirectories_set _ (by simp [hnone]), ⟨[], bytes?_set_self hfree⟩, ?_⟩
    intro l bytes hl
    have hne : l ≠ loc := fun he => by
      rw [he, bytes?_eq_some, hnone] at hl
      cases hl
    rw [bytes?_eq_some, node?_set, if_neg (not_fixed_of_bytes? hl), if_neg hne]
    exact bytes?_eq_some.mp hl
  · exact ⟨.refl tree', hfile, fun _ _ hl => hl⟩

/-- Opening a file changes nothing elsewhere. -/
theorem node?_of_openFile {path : String} {tree tree' : FileTree} {loc l : Location}
    (h : openFile path tree = .ok loc tree') (hne : l ≠ loc) : tree'.node? l = tree.node? l := by
  obtain ⟨target, name, -, -, -, -, -, hnode⟩ := openFile_ok h
  rcases hnode with ⟨-, rfl⟩ | ⟨-, rfl⟩
  · exact node?_set_of_ne tree _ hne
  · rfl

/-- What stands where after a file has got new bytes by way of another file. -/
theorem node?_replace {path : String} {tree opened : FileTree} {scratch loc : Location}
    (ho : openFile path tree = .ok scratch opened) (hloc : ¬ Fixed loc) (bytes : Bytes)
    (l : Location) :
    ((opened.set scratch (.file bytes)).move scratch loc).node? l =
      if l = loc then some (.file bytes) else if l = scratch then none else tree.node? l := by
  obtain ⟨-, ⟨found, hfound⟩, -⟩ := openFile_keeps ho
  have hscratch := not_fixed_of_bytes? hfound
  have hput : (opened.set scratch (.file bytes)).bytes? scratch = some bytes :=
    bytes?_set_self hscratch
  rw [node?_move hput]
  by_cases hfixed : Fixed l
  · have hl : l ≠ loc := fun he => hloc (he ▸ hfixed)
    have hs : l ≠ scratch := fun he => hscratch (he ▸ hfixed)
    rw [if_pos hfixed, if_neg hl, if_neg hs, node?_of_fixed hfixed]
  · rw [if_neg hfixed]
    split
    · rfl
    · split
      · rfl
      · next hs => rw [node?_set_of_ne opened _ hs, node?_of_openFile ho hs]

/-- A file gets new bytes that were put together in another file, which is moved in its place. -/
theorem replace_keeps {path : String} {tree opened : FileTree} {scratch loc : Location}
    {old : Bytes} (ho : openFile path tree = .ok scratch opened)
    (hold : tree.bytes? loc = some old) (bytes : Bytes) :
    ((opened.set scratch (.file bytes)).move scratch loc).bytes? loc = some bytes ∧
      KeepsDirectories tree ((opened.set scratch (.file bytes)).move scratch loc) := by
  obtain ⟨hkeep, ⟨found, hfound⟩, -⟩ := openFile_keeps ho
  have hnode := node?_replace ho (not_fixed_of_bytes? hold) bytes
  refine ⟨bytes?_eq_some.mpr ((hnode loc).trans (if_pos rfl)), fun l hl => ?_⟩
  have hloc : l ≠ loc := by
    rintro rfl
    rw [bytes?_eq_some.mp hold] at hl
    cases hl
  have hscratch : l ≠ scratch := by
    rintro rfl
    cases (bytes?_eq_some.mp hfound).symm.trans (hkeep _ hl)
  rw [hnode, if_neg hloc, if_neg hscratch, hl]

/-! ## Making directories -/

theorem makeDirectory_ok {path : String} {tree tree' : FileTree}
    (h : makeDirectory path tree = .ok () tree') :
    ∃ target name, tree.locate path = .ok target ∧ target.name = some name ∧
      ¬ nameLimit < name.utf8ByteSize ∧ tree.node? (target.directory ++ [name]) = none ∧
      tree' = tree.set (target.directory ++ [name]) .directory := by
  simp only [makeDirectory, Runs.bind_apply, Runs.get_apply] at h
  cases ht : tree.locate path with
  | error e => simp [ht] at h
  | ok target =>
    simp only [ht, Runs.ofExcept_ok] at h
    cases hn : target.name with
    | none => simp [hn] at h
    | some name =>
      simp only [hn, Runs.bind_apply] at h
      cases hc : tree.child? target.directory name with
      | error e => simp [hc] at h
      | ok found =>
        cases found with
        | some node => simp [hc] at h
        | none =>
          simp only [hc, Runs.ofExcept_ok] at h
          cases h
          unfold child? at hc
          split at hc
          · cases hc
          rename_i hlen
          exact ⟨target, name, rfl, hn, hlen, Except.ok.inj hc, rfl⟩

theorem hasDirectory_of_makeDirectory {path : String} {tree tree' : FileTree}
    (h : makeDirectory path tree = .ok () tree') : tree'.hasDirectory path = true := by
  obtain ⟨target, name, ht, hn, hlen, hnone, rfl⟩ := makeDirectory_ok h
  have hkeep : KeepsDirectories tree (tree.set (target.directory ++ [name]) .directory) :=
    keepsDirectories_set _ (by simp [hnone])
  have hdir : (tree.set (target.directory ++ [name]) .directory).node?
      (target.directory ++ [name]) = some .directory := by
    rw [node?_set, if_pos rfl, ite_self]
  simp [hasDirectory, find, hkeep.locate ht, hn, child?, hlen, hdir, bind, Except.bind, pure,
    Except.pure]

theorem makeDirectory_error {path : String} {tree tree' : FileTree} {e : FileError}
    (h : makeDirectory path tree = .error e tree') : tree' = tree := by
  simp only [makeDirectory, Runs.bind_apply, Runs.get_apply] at h
  cases ht : tree.locate path with
  | error e =>
    simp only [ht, Runs.ofExcept_error] at h
    cases h
    rfl
  | ok target =>
    simp only [ht, Runs.ofExcept_ok] at h
    cases hn : target.name with
    | none =>
      simp only [hn] at h
      cases h
      rfl
    | some name =>
      simp only [hn, Runs.bind_apply] at h
      cases hc : tree.child? target.directory name with
      | error e =>
        simp only [hc, Runs.ofExcept_error] at h
        cases h
        rfl
      | ok found =>
        simp only [hc, Runs.ofExcept_ok] at h
        cases found <;> cases h
        rfl

/-- A directory that is there is not made again. -/
theorem makeDirectory_of_hasDirectory {path : String} {tree : FileTree}
    (h : tree.hasDirectory path = true) : ∃ e, makeDirectory path tree = .error e tree := by
  cases hm : makeDirectory path tree with
  | error e tree' => exact ⟨e, by rw [makeDirectory_error hm]⟩
  | ok u tree' =>
    exfalso
    unfold hasDirectory at h
    split at h
    · rename_i loc hf
      simp only [makeDirectory, Runs.bind_apply, Runs.get_apply] at hm
      simp only [find, bind, Except.bind] at hf
      cases ht : tree.locate path with
      | error e => simp [ht] at hm
      | ok target =>
        simp only [ht, Runs.ofExcept_ok] at hm hf
        cases hn : target.name with
        | none => simp [hn] at hm
        | some name =>
          simp only [hn, Runs.bind_apply] at hm hf
          cases hc : tree.child? target.directory name with
          | error e => simp [hc] at hm
          | ok found =>
            cases found with
            | none =>
              simp only [hc] at hf
              cases hf
            | some node => simp [hc] at hm
    · cases h

theorem ensureDirectory_ok {path : String} {tree tree' : FileTree}
    (h : ensureDirectory path tree = .ok () tree') : tree'.hasDirectory path = true := by
  unfold ensureDirectory at h
  cases hm : makeDirectory path tree with
  | ok u t =>
    rw [Runs.tryCatch_of_ok hm] at h
    cases h
    exact hasDirectory_of_makeDirectory hm
  | error e t =>
    rw [Runs.tryCatch_of_error hm, Runs.bind_apply, Runs.get_apply] at h
    simp only [] at h
    split at h
    · cases h
    · rename_i hd
      cases h
      simpa using hd

theorem ensureDirectory_of_hasDirectory {path : String} {tree : FileTree}
    (h : tree.hasDirectory path = true) : ensureDirectory path tree = .ok () tree := by
  obtain ⟨e, hm⟩ := makeDirectory_of_hasDirectory h
  rw [ensureDirectory, Runs.tryCatch_of_error hm, Runs.bind_apply, Runs.get_apply]
  simp [h]

theorem makeInnermost_cons_ok {path : String} {outer : List String} {tree tree' : FileTree}
    (h : makeInnermost (path :: outer) tree = .ok () tree') : tree'.hasDirectory path = true := by
  rw [makeInnermost] at h
  cases hd : ensureDirectory path tree with
  | ok u t =>
    rw [Runs.tryCatch_of_ok hd] at h
    cases h
    exact ensureDirectory_ok hd
  | error e t =>
    rw [Runs.tryCatch_of_error hd] at h
    split at h
    · cases h
    · obtain ⟨-, u, -, h⟩ := Runs.bind_eq_ok.mp h
      exact ensureDirectory_ok h

/-- The files of two trees are the same. -/
def SameFiles (tree tree' : FileTree) : Prop := ∀ loc, tree'.bytes? loc = tree.bytes? loc

theorem sameFiles_makeDirectory (path : String) (tree : FileTree) :
    SameFiles tree (Runs.final (makeDirectory path tree)) := by
  cases hm : makeDirectory path tree with
  | error e tree' =>
    rw [Runs.final_error, makeDirectory_error hm]
    exact fun _ => rfl
  | ok u tree' =>
    obtain ⟨target, name, -, -, -, hnone, rfl⟩ := makeDirectory_ok hm
    intro loc
    rw [Runs.final_ok, bytes?, bytes?, node?_set]
    by_cases hf : Fixed loc
    · rw [if_pos hf, node?_of_fixed hf]
    · rw [if_neg hf]
      by_cases hl : loc = target.directory ++ [name]
      · rw [if_pos hl, hl, hnone]
      · rw [if_neg hl]

theorem sameFiles_ensureDirectory (path : String) (tree : FileTree) :
    SameFiles tree (Runs.final (ensureDirectory path tree)) := by
  have hm := sameFiles_makeDirectory path tree
  unfold ensureDirectory
  cases hr : makeDirectory path tree with
  | ok u t =>
    rw [Runs.tryCatch_of_ok hr]
    rwa [hr] at hm
  | error e t =>
    rw [hr] at hm
    rw [Runs.tryCatch_of_error hr, Runs.bind_apply, Runs.get_apply]
    simp only []
    split <;> exact hm

theorem sameFiles_makeInnermost (paths : List String) (tree : FileTree) :
    SameFiles tree (Runs.final (makeInnermost paths tree)) := by
  induction paths generalizing tree with
  | nil => exact fun _ => rfl
  | cons path outer ih =>
    have hd := sameFiles_ensureDirectory path tree
    rw [makeInnermost]
    cases hr : ensureDirectory path tree with
    | ok u t =>
      rw [Runs.tryCatch_of_ok hr]
      rwa [hr] at hd
    | error e t =>
      rw [hr] at hd
      rw [Runs.tryCatch_of_error hr]
      simp only []
      split
      · exact hd
      · have ho := ih t
        rw [Runs.bind_apply]
        cases hi : makeInnermost outer t with
        | error e t' =>
          rw [hi] at ho
          exact fun loc => (ho loc).trans (hd loc)
        | ok u t' =>
          rw [hi] at ho
          have hlast := sameFiles_ensureDirectory path t'
          exact fun loc => (hlast loc).trans ((ho loc).trans (hd loc))

theorem makeParents_eq (path : String) :
    makeParents path = makeInnermost (Path.ways path).dropLast.reverse := by
  rw [makeParents]
  cases hlast : (Path.ways path).dropLast.getLast? with
  | none =>
    rw [List.getLast?_eq_none_iff.mp hlast]
    rfl
  | some parent =>
    rw [← Path.ways_of_getLast? hlast]
    rfl

/-! ## Files that are found again -/

/-- A path leads to the file at a location, and the directories that it goes through are there. -/
structure Reaches (tree : FileTree) (path : String) (loc : Location) : Prop where
  parents : ∀ way outer, (Path.ways path).dropLast.reverse = way :: outer →
    tree.hasDirectory way = true
  located : ∃ target name, tree.locate path = .ok target ∧ target.name = some name ∧
    target.slash = false ∧ loc = target.directory ++ [name] ∧ ¬ nameLimit < name.utf8ByteSize
  file : ∃ bytes, tree.bytes? loc = some bytes

theorem reaches_of_openFile {path : String} {before tree tree' : FileTree} {loc : Location}
    (hp : makeParents path before = .ok () tree) (ho : openFile path tree = .ok loc tree') :
    Reaches tree' path loc := by
  obtain ⟨hkeep, hfile, -⟩ := openFile_keeps ho
  refine ⟨fun way outer hw => ?_, ?_, hfile⟩
  · rw [makeParents_eq, hw] at hp
    exact hkeep.hasDirectory (makeInnermost_cons_ok hp)
  · obtain ⟨target, name, ht, hn, hs, hloc, hlen, -⟩ := openFile_ok ho
    exact ⟨target, name, hkeep.locate ht, hn, hs, hloc, hlen⟩

namespace Reaches

variable {tree tree' : FileTree} {path : String} {loc : Location}

theorem of_keeps (h : Reaches tree path loc) (hk : KeepsDirectories tree tree') {bytes : Bytes}
    (hb : tree'.bytes? loc = some bytes) : Reaches tree' path loc := by
  refine ⟨fun way outer hw => hk.hasDirectory (h.parents way outer hw), ?_, ⟨bytes, hb⟩⟩
  obtain ⟨target, name, ht, hrest⟩ := h.located
  exact ⟨target, name, hk.locate ht, hrest⟩

theorem not_fixed (h : Reaches tree path loc) : ¬ Fixed loc :=
  h.file.elim fun _ hb => not_fixed_of_bytes? hb

theorem node?_ne_directory (h : Reaches tree path loc) : tree.node? loc ≠ some .directory := by
  obtain ⟨bytes, hb⟩ := h.file
  rw [bytes?_eq_some.mp hb]
  simp

theorem makeParents (h : Reaches tree path loc) : makeParents path tree = .ok () tree := by
  rw [makeParents_eq]
  cases hw : (Path.ways path).dropLast.reverse with
  | nil => rfl
  | cons way outer =>
    rw [makeInnermost]
    exact Runs.tryCatch_of_ok (ensureDirectory_of_hasDirectory (h.parents way outer hw))

theorem openFile (h : Reaches tree path loc) : openFile path tree = .ok loc tree := by
  obtain ⟨target, name, ht, hn, hs, hloc, hlen⟩ := h.located
  obtain ⟨bytes, hb⟩ := h.file
  have hc : tree.child? target.directory name = .ok (some (.file bytes)) := by
    rw [child?, if_neg hlen, ← hloc, bytes?_eq_some.mp hb]
  simp [FileTree.openFile, Runs.bind_apply, ht, hn, hs, hc, hloc]

end Reaches

end WorkQueue.FileTree
