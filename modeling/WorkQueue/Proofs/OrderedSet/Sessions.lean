import WorkQueue.Proofs.OrderedSet.Contents
import WorkQueue.Proofs.Store.Sessions

/-!
# An ordered set is a list

A `Move` is what is asked of an ordered set in memory, and `Move.onList` the same of a `Listing`,
which is a list of members and the number of writes that are left. A session of such moves is
played on both.

* `Refines`: what ties the set in memory and the entries of its namespace to a listing;
* `Refines.move`: a move does the same to both, or fails for both and changes nothing;
* `Refines.simulates`: so does any other event of a session;
* `session_refines`: so a session on a namespace that is empty at first has the replies of the list.
-/

namespace WorkQueue.OrderedSet

open Session (Player)

/-! ## Moves -/

/-- What is asked of an ordered set, by the type of the reply. `reopen` loads it again. -/
inductive Move : Type → Type 1 where
  | put (member : Bytes) : Move Bool
  | delete (member : Bytes) : Move Bool
  | takeAll {α : Type} (convert : Bytes → Except Error α) : Move (List α)
  | reopen : Move Unit
  | contains (member : Bytes) : Move Bool
  | head : Move Bytes
  | isEmpty : Move Bool
  | size : Move Nat
  | members : Move (List Bytes)

/-- Has a set in memory make a move. -/
def Move.perform {α : Type} : Move α → LiveM OrderedSet α
  | put member => .renew fun set => set.put member
  | delete member => do LiveM.onStore ((← LiveM.memory).delete member)
  | takeAll convert => .renew fun set => set.takeAll convert
  | reopen => .renew fun set => return ((), ← load set.space)
  | contains member => do LiveM.onStore ((← LiveM.memory).contains member)
  | head => do LiveM.onStore (← LiveM.memory).head
  | isEmpty => do LiveM.onStore (← LiveM.memory).isEmpty
  | size => do LiveM.onStore (← LiveM.memory).size
  | members => do LiveM.onStore (← LiveM.memory).members

/-- A list of members, of which each change takes one write. -/
structure Listing where
  members : List Bytes
  /-- The number of changes before all further ones are refused; `none` refuses no change. -/
  writesLeft : Option Nat
deriving DecidableEq, Repr

/-- An action on a listing. -/
abbrev ListingM := EStateM Error Listing

/-- Changes the list, unless that is refused. -/
def Listing.become {α : Type} (members : List Bytes) (reply : α) : ListingM α := fun l =>
  if l.writesLeft = some 0 then .error (.file .writeRefused) l
  else .ok reply ⟨members, l.writesLeft.map (· - 1)⟩

theorem Listing.become_refused {α : Type} {l : Listing} (h : l.writesLeft = some 0)
    (members : List Bytes) (reply : α) :
    become members reply l = .error (.file .writeRefused) l := if_pos h

theorem Listing.become_ok {α : Type} {l : Listing} (h : l.writesLeft ≠ some 0)
    (members : List Bytes) (reply : α) :
    become members reply l = .ok reply ⟨members, l.writesLeft.map (· - 1)⟩ := if_neg h

/-- Makes a move on a listing. -/
def Move.onList {α : Type} : Move α → ListingM α
  | put member => fun l =>
    if member ∈ l.members then .ok false l else Listing.become (l.members ++ [member]) true l
  | delete member => fun l =>
    if member ∈ l.members then Listing.become (l.members.erase member) true l else .ok false l
  | takeAll convert => fun l =>
    match l.members.mapM convert with
    | .error e => .error e l
    | .ok taken => if l.members = [] then .ok taken l else Listing.become [] taken l
  | reopen => fun l => .ok () l
  | contains member => fun l => .ok (decide (member ∈ l.members)) l
  | head => fun l =>
    match l.members with
    | member :: _ => .ok member l
    | [] => .error .notFound l
  | isEmpty => fun l => .ok l.members.isEmpty l
  | size => fun l => .ok l.members.length l
  | members => fun l => .ok l.members l

/-- How often a move puts a member. -/
def Move.puts {α : Type} : Move α → Nat
  | put _ => 1
  | _ => 0

/-! ## One move -/

/-- A set in memory and the entries in its namespace are those of a listing. The tail has not come
further than the number of puts, so it need not be known. -/
def Refines (space : Namespace) (puts : Nat) (live : Live OrderedSet) (l : Listing) : Prop :=
  ∃ entries tail, Lists space live.store.table entries tail ∧ live.memory = ⟨space, tail⟩ ∧
    entries.map (·.2) = l.members ∧ live.store.writesLeft = l.writesLeft ∧ tail.toNat ≤ puts

namespace Refines

variable {space : Namespace} {puts : Nat} {live : Live OrderedSet} {l : Listing} {α : Type}

theorem mono {puts' : Nat} (h : Refines space puts live l) (hle : puts ≤ puts') :
    Refines space puts' live l := by
  obtain ⟨entries, tail, hlists, hmemory, hmembers, hleft, htail⟩ := h
  exact ⟨entries, tail, hlists, hmemory, hmembers, hleft, Nat.le_trans htail hle⟩

/-- A store that shows the same in the namespace refines the same list. -/
theorem of_view (h : Refines space puts live l) {s : Store} {left : Option Nat}
    (hview : space.view s.table = space.view live.store.table) (hleft : s.writesLeft = left) :
    Refines space puts { live with store := s } { l with writesLeft := left } := by
  obtain ⟨entries, tail, hlists, hmemory, hmembers, -, htail⟩ := h
  exact ⟨entries, tail, hlists.of_view hview, hmemory, hmembers, hleft, htail⟩

/-- A list that a set refines repeats no member. -/
theorem nodup (h : Refines space puts live l) : l.members.Nodup := by
  obtain ⟨entries, tail, hlists, -, hmembers, -, -⟩ := h
  exact hmembers ▸ hlists.distinct

/-- What a move can come to on a set and on a list: the same reply of both, or the same error with
nothing changed. -/
def Steps (space : Namespace) (puts : Nat) (live : Live OrderedSet) (l : Listing) (m : Move α) :
    Prop :=
  (∃ a live' l', m.perform live = .ok a live' ∧ m.onList l = .ok a l' ∧
    Refines space puts live' l') ∨
  ∃ e, m.perform live = .error e live ∧ m.onList l = .error e l

/-- A move that only reads. -/
theorem steps_read (h : Refines space puts live l) {m : Move α} {a : α}
    (hset : m.perform live = .ok a live) (hlist : m.onList l = .ok a l) :
    Steps space puts live l m := .inl ⟨a, live, l, hset, hlist, h⟩

theorem put (h : Refines space puts live l) (member : Bytes) (hputs : puts + 1 < UInt64.size) :
    Steps space (puts + 1) live l (.put member) := by
  obtain ⟨entries, tail, hlists, hmemory, hmembers, hleft, htail⟩ := id h
  obtain ⟨memory, s⟩ := live
  obtain rfl : memory = _ := hmemory
  have hindexed : indexed space s.table member = true ↔ member ∈ l.members := by
    rw [hlists.indexed_iff, hmembers]
  by_cases hmem : member ∈ l.members
  · refine .inl ⟨false, _, l, ?_, if_pos hmem, h.mono (Nat.le_succ puts)⟩
    simp only [Move.perform, LiveM.renew, put_run, hindexed.mpr hmem, if_true]
  · have hnot : ¬ indexed space s.table member = true := fun hi => hmem (hindexed.mp hi)
    by_cases hw : s.writesLeft = some 0
    · refine .inr ⟨.file .writeRefused, ?_, ?_⟩
      · simp only [Move.perform, LiveM.renew, put_run, if_neg hnot, if_pos hw]
      · simp only [Move.onList, if_neg hmem, Listing.become_refused (hleft ▸ hw)]
    · refine .inl ⟨true, ⟨⟨space, tail + 1⟩, s.after (additions ⟨space, tail⟩ member)⟩,
        ⟨l.members ++ [member], l.writesLeft.map (· - 1)⟩, ?_, ?_, ?_⟩
      · simp only [Move.perform, LiveM.renew, put_run, if_neg hnot, if_neg hw]
      · simp only [Move.onList, if_neg hmem, Listing.become_ok (hleft ▸ hw)]
      · have hroom : tail.toNat + 1 < UInt64.size := by omega
        have hnext : (tail + 1).toNat = tail.toNat + 1 := by
          rw [UInt64.toNat_add]
          exact Nat.mod_eq_of_lt hroom
        refine ⟨entries ++ [(tail, member)], tail + 1, ?_, rfl, ?_, ?_, ?_⟩
        · rw [Store.table_after]
          exact hlists.put (hmembers ▸ hmem) hroom
        · rw [List.map_append, hmembers]
          rfl
        · rw [Store.writesLeft_after, hleft]
        · omega

/-- Leaving out the entry of a member leaves the member out. -/
theorem map_filter_ne {entries : List (UInt64 × Bytes)} (hd : (entries.map (·.2)).Nodup)
    (member : Bytes) :
    (entries.filter fun e => e.2 != member).map (·.2) = (entries.map (·.2)).erase member := by
  rw [hd.erase_eq_filter, List.filter_map]
  rfl

theorem delete (h : Refines space puts live l) (member : Bytes) :
    Steps space puts live l (.delete member) := by
  obtain ⟨entries, tail, hlists, hmemory, hmembers, hleft, htail⟩ := id h
  obtain ⟨memory, s⟩ := live
  obtain rfl : memory = _ := hmemory
  by_cases hmem : member ∈ l.members
  · obtain ⟨⟨seq, m⟩, hentry, rfl⟩ := List.mem_map.mp (hmembers ▸ hmem)
    have hindex := (hlists.index m _).mpr ⟨seq, hentry, rfl⟩
    by_cases hw : s.writesLeft = some 0
    · refine .inr ⟨.file .writeRefused, ?_, ?_⟩
      · simp only [Move.perform, Runs.bind_apply, LiveM.memory, LiveM.onStore, delete_run, hindex,
          readSeq_encodeWord, if_pos hw]
      · simp only [Move.onList, if_pos hmem, Listing.become_refused (hleft ▸ hw)]
    · refine .inl ⟨true, ⟨⟨space, tail⟩, s.after (removal ⟨space, tail⟩ seq m)⟩,
        ⟨l.members.erase m, l.writesLeft.map (· - 1)⟩, ?_, ?_, ?_⟩
      · simp only [Move.perform, Runs.bind_apply, LiveM.memory, LiveM.onStore, delete_run, hindex,
          readSeq_encodeWord, if_neg hw]
      · simp only [Move.onList, if_pos hmem, Listing.become_ok (hleft ▸ hw)]
      · refine ⟨entries.filter fun e => e.2 != m, tail, ?_, rfl, ?_, ?_, htail⟩
        · rw [Store.table_after]
          exact hlists.delete hentry
        · rw [map_filter_ne hlists.distinct, hmembers]
        · rw [Store.writesLeft_after, hleft]
  · have hnone : space.view s.table (indexKey member) = none := by
      rw [← Option.not_isSome_iff_eq_none]
      exact fun hi => hmem (hmembers ▸ hlists.indexed_iff.mp hi)
    refine h.steps_read (a := false) ?_ (if_neg hmem)
    simp only [Move.perform, Runs.bind_apply, LiveM.memory, LiveM.onStore, delete_run, hnone]

theorem takeAll (h : Refines space puts live l) (convert : Bytes → Except Error α) :
    Steps space puts live l (.takeAll convert) := by
  obtain ⟨entries, tail, hlists, hmemory, hmembers, hleft, htail⟩ := id h
  obtain ⟨memory, s⟩ := live
  obtain rfl : memory = _ := hmemory
  have hlisted : (listed space s.table).map (·.2) = l.members := by
    rw [hlists.members, hmembers]
  have hconvert : ((listed space s.table).mapM fun e => convert e.2) = l.members.mapM convert := by
    rw [← hlisted, List.mapM_map]
    rfl
  have hempty : (listed space s.table).isEmpty = true ↔ l.members = [] := by
    rw [← hlisted, List.map_eq_nil_iff, List.isEmpty_iff]
  cases htaken : l.members.mapM convert with
  | error e =>
    refine .inr ⟨e, ?_, by simp only [Move.onList, htaken]⟩
    simp only [Move.perform, LiveM.renew, takeAll_run, hconvert, htaken]
  | ok taken =>
    by_cases hnil : l.members = []
    · refine h.steps_read (a := taken) ?_ (by simp only [Move.onList, htaken, if_pos hnil])
      simp only [Move.perform, LiveM.renew, takeAll_run, hconvert, htaken, hempty.mpr hnil, if_true]
    · have hsome : ¬ (listed space s.table).isEmpty = true := fun he => hnil (hempty.mp he)
      by_cases hw : s.writesLeft = some 0
      · refine .inr ⟨.file .writeRefused, ?_, ?_⟩
        · simp only [Move.perform, LiveM.renew, takeAll_run, hconvert, htaken, if_neg hsome,
            if_pos hw]
        · simp only [Move.onList, htaken, if_neg hnil, Listing.become_refused (hleft ▸ hw)]
      · refine .inl ⟨taken, ⟨⟨space, 0⟩, s.after (removals ⟨space, tail⟩ (listed space s.table))⟩,
          ⟨[], l.writesLeft.map (· - 1)⟩, ?_, ?_, [], 0, ?_, rfl, rfl, ?_, Nat.zero_le _⟩
        · simp only [Move.perform, LiveM.renew, takeAll_run, hconvert, htaken, if_neg hsome,
            if_neg hw]
        · simp only [Move.onList, htaken, if_neg hnil, Listing.become_ok (hleft ▸ hw)]
        · rw [Store.table_after]
          exact hlists.takeAll
        · rw [Store.writesLeft_after, hleft]

/-- Loading the set again gives the set that is in memory. -/
theorem reopen (h : Refines space puts live l) : Steps space puts live l .reopen := by
  obtain ⟨entries, tail, hlists, hmemory, -, -, -⟩ := id h
  obtain ⟨memory, s⟩ := live
  obtain rfl : memory = _ := hmemory
  refine h.steps_read (a := ()) ?_ rfl
  simp only [Move.perform, LiveM.renew, Runs.bind_apply, load_run, hlists.stored,
    Runs.ofExcept_ok, Runs.pure_apply]

/-- A move does the same to the set and to the list, or fails for both and changes nothing. -/
theorem move (h : Refines space puts live l) (m : Move α) (hputs : puts + m.puts < UInt64.size) :
    Steps space (puts + m.puts) live l m := by
  obtain ⟨entries, tail, hlists, hmemory, hmembers, hleft, htail⟩ := id h
  obtain ⟨memory, s⟩ := live
  obtain rfl : memory = _ := hmemory
  have hlisted : (listed space s.table).map (·.2) = l.members := by
    rw [hlists.members, hmembers]
  cases m with
  | put member => exact h.put member hputs
  | delete member => exact h.delete member
  | takeAll convert => exact h.takeAll convert
  | reopen => exact h.reopen
  | contains member =>
    refine h.steps_read (a := decide (member ∈ l.members)) ?_ rfl
    have hindexed : indexed space s.table member = decide (member ∈ l.members) := by
      rw [Bool.eq_iff_iff, hlists.indexed_iff, hmembers, decide_eq_true_iff]
    simp only [Move.perform, Runs.bind_apply, LiveM.memory, LiveM.onStore, contains_run, hindexed]
  | head =>
    have hhead : Move.head.perform ⟨⟨space, tail⟩, s⟩ = match l.members with
        | member :: _ => .ok member ⟨⟨space, tail⟩, s⟩
        | [] => .error .notFound ⟨⟨space, tail⟩, s⟩ := by
      simp only [Move.perform, Runs.bind_apply, LiveM.memory, LiveM.onStore, head_run, hlisted]
      cases l.members <;> rfl
    cases hl : l.members with
    | nil => exact .inr ⟨.notFound, by rw [hhead, hl], by simp only [Move.onList, hl]⟩
    | cons member rest =>
      exact h.steps_read (a := member) (by rw [hhead, hl]) (by simp only [Move.onList, hl])
  | isEmpty =>
    refine h.steps_read (a := l.members.isEmpty) ?_ rfl
    simp only [Move.perform, Runs.bind_apply, LiveM.memory, LiveM.onStore, isEmpty_run, hlisted]
  | size =>
    refine h.steps_read (a := l.members.length) ?_ rfl
    simp only [Move.perform, Runs.bind_apply, LiveM.memory, LiveM.onStore, size_run, hlisted]
  | members =>
    refine h.steps_read (a := l.members) ?_ rfl
    simp only [Move.perform, Runs.bind_apply, LiveM.memory, LiveM.onStore, members_run, hlisted]

end Refines

/-! ## Sessions -/

/-- What happens in a session on an ordered set. -/
abbrev Event := Session.Event Move

/-- How often members are put. -/
def puts (events : List Event) : Nat := Session.total Move.puts events

/-- A session on a set in memory, with the replies to the moves and what there is in the end. -/
def session (events : List Event) (live : Live OrderedSet) :
    List (Runs.Outcome Error) × Live OrderedSet :=
  (Player.ofLive Move.perform).play events live

/-- Events that happen to a listing. What is written elsewhere takes a write as a change does. -/
def listPlayer : Player Move Listing where
  perform := Move.onList
  grant writesLeft l := { l with writesLeft }
  elsewhere _ l := Runs.final (Listing.become l.members () l)

/-- The same session on a listing. -/
def listSession (events : List Event) (l : Listing) : List (Runs.Outcome Error) × Listing :=
  listPlayer.play events l

namespace Refines

variable {space : Namespace} {n : Nat} {live : Live OrderedSet} {l : Listing}

theorem elsewhere (h : Refines space n live l) {batch : Batch}
    (hout : ∀ op ∈ batch, ∀ k, op.key ≠ space.key k) :
    Refines space n { live with store := Runs.final (Store.write batch live.store) }
      (Runs.final (Listing.become l.members () l)) := by
  obtain ⟨-, -, -, -, -, hleft, -⟩ := id h
  by_cases hw : live.store.writesLeft = some 0
  · rw [Store.write_refused hw, Listing.become_refused (hleft ▸ hw)]
    exact h
  · rw [Store.write_ok hw, Listing.become_ok (hleft ▸ hw)]
    refine h.of_view ?_ (by rw [Runs.final_ok, Store.writesLeft_after, hleft])
    rw [Runs.final_ok, Store.table_after]
    exact funext fun k => Batch.get?_apply_of_not_mem fun op hop => hout op hop k

theorem simulates (space : Namespace) :
    Session.Simulates (.ofLive Move.perform) listPlayer Move.puts UInt64.size
      (Session.Event.Outside space) (Refines space) where
  move m _ hputs h := by
    rcases h.move m hputs with ⟨a, live', l', hset, hlist, h'⟩ | ⟨e, hset, hlist⟩
    · simp only [Player.ofLive, listPlayer, Runs.attempt, hset, hlist]
      exact ⟨rfl, h'⟩
    · simp only [Player.ofLive, listPlayer, Runs.attempt, hset, hlist]
      exact ⟨rfl, h.mono (Nat.le_add_right _ m.puts)⟩
  grant _ h := h.of_view rfl rfl
  elsewhere _ hout h := h.elsewhere hout

/-- The replies of a session are those of the list, which is in the end what the namespace holds. -/
theorem session (h : Refines space n live l) {events : List Event}
    (hout : ∀ event ∈ events, event.Outside space) (hputs : n + puts events < UInt64.size) :
    (OrderedSet.session events live).1 = (listSession events l).1 ∧
      Refines space (n + puts events) (OrderedSet.session events live).2
        (listSession events l).2 :=
  (simulates space).play hout h hputs

end Refines

/-- A set that is loaded from a namespace without keys, and used by itself there, has for fewer than
`2 ^ 64` puts the replies of a list without repetitions, whatever writes are refused in between. In
the end the namespace holds the members of the list in their order, and a further move that fails
changes neither the set in memory, nor the store, nor the list. -/
theorem session_refines {space : Namespace} {s : Store} {events : List Event}
    (hempty : ∀ key, space.view s.table key = none)
    (hout : ∀ event ∈ events, event.Outside space) (hputs : puts events < UInt64.size) :
    ∃ set last list, load space s = .ok set s ∧
      (session events ⟨set, s⟩).2 = last ∧
      (listSession events ⟨[], s.writesLeft⟩).2 = list ∧
      (session events ⟨set, s⟩).1 = (listSession events ⟨[], s.writesLeft⟩).1 ∧
      list.members.Nodup ∧
      (∃ entries, Lists space last.store.table entries last.memory.tail ∧
        last.memory.space = space ∧ entries.map (·.2) = list.members) ∧
      ∀ (α : Type) (m : Move α) (e : Error) (live : Live OrderedSet),
        puts events + m.puts < UInt64.size → m.perform last = .error e live →
          live = last ∧ m.onList list = .error e list := by
  have hlists : Lists space s.table [] 0 := lists_empty hempty
  have hstart : Refines space 0 ⟨⟨space, 0⟩, s⟩ ⟨[], s.writesLeft⟩ :=
    ⟨[], 0, hlists, rfl, rfl, rfl, Nat.le_refl 0⟩
  obtain ⟨hreplies, hlast⟩ := hstart.session hout (by rwa [Nat.zero_add])
  rw [Nat.zero_add] at hlast
  refine ⟨⟨space, 0⟩, _, _, by rw [load_run, hlists.stored, Runs.ofExcept_ok], rfl, rfl, hreplies,
    hlast.nodup, ?_, fun α m e live hm herror => ?_⟩
  · obtain ⟨entries, tail, hlists, hmemory, hmembers, -, -⟩ := hlast
    exact ⟨entries, by rw [hmemory]; exact hlists, by rw [hmemory], hmembers⟩
  · rcases hlast.move m hm with ⟨a, live', l', hset, -, -⟩ | ⟨e', hset, hlist⟩
    · cases hset.symm.trans herror
    · cases hset.symm.trans herror
      exact ⟨rfl, hlist⟩

/-- Members that can be taken unless they are empty. -/
def takeSome (member : Bytes) : Except Error Nat :=
  if member = [] then .error .notFound else .ok member.length

/-- Two members come, one of them empty. A refused deletion and a failed conversion change nothing,
and after the empty member has gone the set can be taken. -/
def twoMembers : List Event :=
  [.move (.put [7, 8]), .move (.put []), .move (.put [7, 8]), .grant (some 0),
    .move (.delete []), .move (.takeAll takeSome), .move .members, .move .reopen, .grant (some 2),
    .elsewhere [.put [1] [2]], .move (.delete []), .move (.takeAll takeSome), .grant none,
    .move (.takeAll takeSome), .move .head]

theorem session_refines_twoMembers :
    ∃ set, load ⟨[9]⟩ (Store.volatile .empty) = .ok set (Store.volatile .empty) ∧
      (session twoMembers ⟨set, Store.volatile .empty⟩).1 =
        [⟨Bool, .ok true⟩, ⟨Bool, .ok true⟩, ⟨Bool, .ok false⟩,
          ⟨Bool, .error (.file .writeRefused)⟩, ⟨List Nat, .error .notFound⟩,
          ⟨List Bytes, .ok [[7, 8], []]⟩, ⟨Unit, .ok ()⟩,
          ⟨Bool, .ok true⟩, ⟨List Nat, .error (.file .writeRefused)⟩,
          ⟨List Nat, .ok [2]⟩, ⟨Bytes, .error .notFound⟩] := by
  have hout : ∀ event ∈ twoMembers, event.Outside ⟨[9]⟩ := by
    simp [twoMembers, Session.Event.Outside, Operation.key, Namespace.key]
  have hempty : ∀ key, Namespace.view ⟨[9]⟩ (Store.volatile .empty).table key = none :=
    fun _ => rfl
  obtain ⟨set, -, -, hload, -, -, hreplies, -⟩ := session_refines hempty hout (by decide)
  refine ⟨set, hload, ?_⟩
  rw [hreplies]
  rfl

end WorkQueue.OrderedSet
