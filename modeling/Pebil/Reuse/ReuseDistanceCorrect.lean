import Pebil.Lib.Recency
import Pebil.Reuse.ReuseDistance
import Pebil.Reuse.StatsMapCorrect
import Pebil.Reuse.Tree234Correct

/-!
# The distances are reuse distances

The window is the order of last use since it was last emptied, up to the capacity, with the oldest
address first. So the distance that is counted for an access is the number of different addresses
from the last access to its address on, and 0 where there is none or it is above the capacity.

The comparison of sequence numbers is an `int`. It is that of the numbers as long as fewer than
`2 ^ 31` accesses come between two flushes.
-/

namespace Pebil

open Recency

/-! ## Comparing -/

/-- The numbers are close enough for an `int`. -/
theorem reusecmp_eq {va vb : ReuseEntry} (hab : va.id.toNat < vb.id.toNat + 2 ^ 31)
    (hba : vb.id.toNat < va.id.toNat + 2 ^ 31) :
    reusecmp va vb = (va.id.toNat : Int) - vb.id.toNat := by
  have ha := va.id.isLt
  have hb := vb.id.isLt
  rw [reusecmp, BitVec.toInt_setWidth, BitVec.toNat_sub, Int.bmod_def]
  omega

/-- Entries whose numbers go up, and are close to each other. -/
structure Close (es : List ReuseEntry) (seq : BitVec 64) : Prop where
  ascending : es.Pairwise fun x y => x.id.toNat < y.id.toNat
  lt : ∀ e ∈ es, e.id.toNat < seq.toNat
  near : ∀ e ∈ es, seq.toNat < e.id.toNat + 2 ^ 31

section Close

variable {es : List ReuseEntry} {seq : BitVec 64} {e x y : ReuseEntry}

theorem Close.cmp (h : Close es seq) (hx : x ∈ es) (hy : y ∈ es) :
    reusecmp x y = (x.id.toNat : Int) - y.id.toNat := by
  have hxlt := h.lt x hx
  have hylt := h.lt y hy
  have hxnear := h.near x hx
  have hynear := h.near y hy
  exact reusecmp_eq (by omega) (by omega)

/-- The number of the next entry is above all. -/
theorem Close.cmp_next (h : Close es seq) {addr : BitVec 64} (hy : y ∈ es) :
    0 < reusecmp ⟨seq, addr⟩ y := by
  have hlt := h.lt y hy
  have hnear := h.near y hy
  have hcmp : reusecmp ⟨seq, addr⟩ y = (seq.toNat : Int) - y.id.toNat :=
    reusecmp_eq hnear (Nat.lt_add_right (2 ^ 31) hlt)
  omega

theorem Close.directed (h : Close es seq) (hx : x ∈ es) : Directed (reusecmp x) es := by
  refine List.Pairwise.imp_of_mem (fun {y z} hy hz hyz hle => ?_) h.ascending
  rw [h.cmp hx hz] at hle
  rw [h.cmp hx hy]
  omega

/-- Two entries do not have the same number. -/
theorem Close.inj (h : Close es seq) (hx : x ∈ es) (hy : y ∈ es)
    (hxy : x.id.toNat = y.id.toNat) : x = y := by
  have hnodup : (es.map fun e => e.id.toNat).Nodup :=
    List.pairwise_map.mpr (h.ascending.imp fun hlt => Nat.ne_of_lt hlt)
  exact List.inj_on_of_nodup_map hnodup hx hy hxy

theorem Close.sublist {es' : List ReuseEntry} (h : Close es seq) (hsub : es'.Sublist es) :
    Close es' seq where
  ascending := h.ascending.sublist hsub
  lt e he := h.lt e (hsub.subset he)
  near e he := h.near e (hsub.subset he)

end Close

/-! ## The window -/

namespace ReuseDistance

/-- The tree and the map have the same entries. -/
structure Holds (window : Tree234 ReuseEntry) (mwindow : AList fun _ : BitVec 64 => BitVec 64)
    (es : List ReuseEntry) : Prop where
  balanced : window.Balanced
  list : window.toList = es
  distinct : (es.map ReuseEntry.address).Nodup
  lookup : ∀ a s, mwindow.lookup a = some s ↔ ⟨s, a⟩ ∈ es
  size : mwindow.keys.length = es.length

theorem guard_of {p : Prop} [Decidable p] (h : p) : (guard p : Option Unit) = some () := if_pos h

section Window

variable {d : ReuseDistance} {es a b : List ReuseEntry} {x : ReuseEntry} {addr : BitVec 64}

theorem Holds.count (h : Holds d.window d.mwindow es) : count234 d.window = es.length :=
  (Ok.countnode h.balanced).trans (congrArg List.length h.list)

theorem Holds.lookup_none (h : Holds d.window d.mwindow es) :
    d.mwindow.lookup addr = none ↔ addr ∉ es.map ReuseEntry.address := by
  rw [Option.eq_none_iff_forall_ne_some, List.mem_map]
  constructor
  · rintro hnone ⟨e, he, rfl⟩
    exact hnone e.id ((h.lookup _ _).mpr he)
  · intro hmem s hs
    exact hmem ⟨_, (h.lookup _ _).mp hs, rfl⟩

/-- The number that the map has for an address leads to its entry. -/
theorem Holds.find (h : Holds d.window d.mwindow es) (hclose : Close es d.sequence) (hx : x ∈ es) :
    ∃ a b, es = a ++ x :: b ∧ findrelpos234 reusecmp d.window x = some (x, a.length) := by
  have hdir := hclose.directed hx
  have hself : reusecmp x x = 0 := by rw [hclose.cmp hx hx, Int.sub_self]
  rw [← h.list] at hdir
  obtain ⟨-, hne⟩ | ⟨a, y, b, hfound, hlist, hy⟩ := findrelpos234_spec h.balanced hdir
  · exact absurd hself (hne x (h.list ▸ hx))
  · rw [h.list] at hlist
    rw [Nat.zero_add] at hfound
    have hyes : y ∈ es := hlist ▸ List.mem_append_right _ List.mem_cons_self
    rw [hclose.cmp hx hyes] at hy
    obtain rfl := hclose.inj hyes hx (by omega)
    exact ⟨a, b, hlist, hfound⟩

/-- Taking out an entry. -/
theorem Holds.recycle (h : Holds d.window d.mwindow (a ++ x :: b)) (hx : x.id ≠ 0) :
    ∃ t, d.recycle a.length = some { d with window := t, mwindow := d.mwindow.erase x.address } ∧
      Holds t (d.mwindow.erase x.address) (a ++ b) := by
  have hlt : a.length < d.window.toList.length := by
    rw [h.list, List.length_append, List.length_cons]
    omega
  obtain ⟨y, t, hdel, hbal, a', b', hlist, hlen, hlist'⟩ := delpos234_spec h.balanced hlt
  rw [h.list] at hlist
  obtain ⟨rfl, htail⟩ := List.append_inj hlist hlen.symm
  obtain ⟨rfl, rfl⟩ := List.cons.inj htail
  have hmem : x ∈ a ++ x :: b := List.mem_append_right _ List.mem_cons_self
  have hlookup : d.mwindow.lookup x.address = some x.id := (h.lookup _ _).mpr hmem
  have hkey : x.address ∈ d.mwindow.keys := AList.mem_keys.mp (AList.lookup_isSome.mp (by simp [hlookup]))
  have hsize : (d.mwindow.erase x.address).keys.length = (a ++ b).length := by
    rw [AList.keys_erase, List.length_erase_of_mem hkey, h.size, List.length_append,
      List.length_append, List.length_cons]
    omega
  have hdistinct := h.distinct
  rw [List.map_append, List.map_cons] at hdistinct
  have hnot : x.address ∉ (a ++ b).map ReuseEntry.address := by
    rw [List.map_append]
    exact (List.nodup_cons.mp (List.nodup_middle.mp hdistinct)).1
  refine ⟨t, ?_, hbal, hlist', ?_, fun addr s => ?_, hsize⟩
  · have hcount : count234 t = (d.mwindow.erase x.address).keys.length :=
      (Ok.countnode hbal).trans ((congrArg List.length hlist').trans hsize.symm)
    simp only [ReuseDistance.recycle, hdel, hlookup, Option.getD_some, Option.bind_eq_bind,
      Option.bind_some, guard_of hx, guard_of hcount, Option.pure_def]
  · rw [List.map_append]
    exact (List.nodup_cons.mp (List.nodup_middle.mp hdistinct)).2
  · by_cases haddr : addr = x.address
    · subst haddr
      rw [AList.lookup_erase]
      exact ⟨fun h => absurd h.symm (Option.some_ne_none s), fun h => absurd (List.mem_map_of_mem h) hnot⟩
    · rw [AList.lookup_erase_ne haddr, h.lookup, List.mem_append, List.mem_append, List.mem_cons]
      have hne : (⟨s, addr⟩ : ReuseEntry) ≠ x := fun h => haddr (congrArg ReuseEntry.address h)
      simp [hne]

/-- Putting in an entry that is behind all others. -/
theorem Holds.insertLast (h : Holds d.window d.mwindow es) (hclose : Close es d.sequence)
    (haddr : addr ∉ es.map ReuseEntry.address)
    (hcurrent : BitVec.ofNat 64 (es.length + 1) ≤ d.current) :
    ∃ t m, d.insertLast addr =
        some { d with window := t, mwindow := m, sequence := d.sequence + 1 } ∧
      Holds t m (es ++ [⟨d.sequence, addr⟩]) := by
  have hpos : ∀ y ∈ d.window.toList, 0 < reusecmp ⟨d.sequence, addr⟩ y := fun y hy =>
    hclose.cmp_next (h.list ▸ hy)
  have hdir : Directed (reusecmp ⟨d.sequence, addr⟩) d.window.toList :=
    List.pairwise_of_forall_mem_list fun y hy z _ _ => hpos y hy
  have hkeys : addr ∉ d.mwindow.keys := fun hmem =>
    haddr (not_not.mp (mt h.lookup_none.mpr (by
      rw [AList.lookup_eq_none, not_not]
      exact AList.mem_keys.mpr hmem)))
  have hsize : (d.mwindow.insert addr d.sequence).keys.length =
      (es ++ [(⟨d.sequence, addr⟩ : ReuseEntry)]).length := by
    rw [AList.keys_insert, List.erase_of_not_mem hkeys, List.length_cons, h.size,
      List.length_append, List.length_singleton]
  obtain ⟨x, hx, hzero, -⟩ | ⟨t, a, b, hadd, hbal, hlist, hlist', -, hb⟩ :=
    add234_spec (e := (⟨d.sequence, addr⟩ : ReuseEntry)) h.balanced hdir
  · exact absurd hzero (Int.ne_of_gt (hpos x hx))
  -- there is nothing behind the new entry
  obtain rfl : b = [] := List.eq_nil_iff_forall_not_mem.mpr fun y hy => by
    have hmem : y ∈ d.window.toList := hlist ▸ List.mem_append_right _ hy
    have hlt := hpos y hmem
    have hgt := hb y hy
    omega
  rw [List.append_nil] at hlist
  have hes : t.toList = es ++ [(⟨d.sequence, addr⟩ : ReuseEntry)] := by
    rw [hlist', ← hlist, h.list]
  refine ⟨t, d.mwindow.insert addr d.sequence, ?_, hbal, hes, ?_, fun a' s => ?_, hsize⟩
  · have hcount : count234 t = (d.mwindow.insert addr d.sequence).keys.length :=
      (Ok.countnode hbal).trans ((congrArg List.length hes).trans hsize.symm)
    have hle : BitVec.ofNat 64 (d.mwindow.insert addr d.sequence).keys.length ≤ d.current := by
      rw [hsize, List.length_append]
      exact hcurrent
    simp only [ReuseDistance.insertLast, hadd, Option.bind_eq_bind, Option.bind_some,
      guard_of hcount, guard_of hle, Option.pure_def]
  · rw [List.map_append]
    exact List.nodup_append.mpr ⟨h.distinct, List.nodup_singleton _, by
      intro y hy z hz
      obtain rfl := List.mem_singleton.mp hz
      exact fun hyz => haddr (hyz ▸ hy)⟩
  · by_cases ha : a' = addr
    · subst ha
      rw [AList.lookup_insert, List.mem_append, List.mem_singleton]
      constructor
      · intro hs
        exact .inr (by rw [Option.some.inj hs])
      · rintro (hmem | heq)
        · exact absurd (List.mem_map_of_mem hmem) haddr
        · exact congrArg some (congrArg ReuseEntry.id heq).symm
    · have hne : (⟨s, a'⟩ : ReuseEntry) ≠ ⟨d.sequence, addr⟩ := fun h =>
        ha (congrArg ReuseEntry.address h)
      rw [AList.lookup_insert_ne ha, h.lookup, List.mem_append, List.mem_singleton]
      exact (or_iff_left hne).symm

end Window

/-! ## What is counted -/

/-- The capacity as a limit. -/
def limit (capacity : BitVec 64) : Option Nat :=
  if capacity = infinityReuse then none else some capacity.toNat

/-- The distance that is to be counted for an access to an address, after a history of accesses. -/
def found (capacity : BitVec 64) (hist : List (BitVec 64)) (addr : BitVec 64) : Nat :=
  if addr ∈ hist ∧ (capacity = infinityReuse ∨ reuseDistance hist addr ≤ capacity.toNat) then
    reuseDistance hist addr
  else 0

theorem mem_keep_limit {capacity : BitVec 64} {hist : List (BitVec 64)} {addr : BitVec 64} :
    addr ∈ keep (limit capacity) (recency hist) ↔
      addr ∈ hist ∧ (capacity = infinityReuse ∨ reuseDistance hist addr ≤ capacity.toNat) := by
  rw [mem_keep_recency, limit]
  split
  · rename_i h
    simp [h]
  · rename_i h
    simp [h]

theorem limit_ne_zero (capacity : BitVec 64) : limit capacity ≠ some 0 := by
  rw [limit]
  split
  · exact (Option.some_ne_none 0).symm
  · rename_i h
    exact fun heq => h (BitVec.eq_of_toNat_eq (Option.some.inj heq))

/-! ## An access -/

/-- The window after a history of accesses. -/
structure Window (d : ReuseDistance) (hist : List (BitVec 64)) (es : List ReuseEntry) : Prop where
  holds : Holds d.window d.mwindow es
  order : (es.map ReuseEntry.address).reverse = keep (limit d.capacity) (recency hist)
  ascending : es.Pairwise fun x y => x.id.toNat < y.id.toNat
  lt : ∀ e ∈ es, e.id.toNat < d.sequence.toNat
  recent : ∀ e ∈ es, d.sequence.toNat ≤ e.id.toNat + hist.length
  start : hist.length < d.sequence.toNat
  current : d.current = BitVec.ofNat 64 es.length

section Access

variable {d : ReuseDistance} {hist : List (BitVec 64)} {es : List ReuseEntry} {addr : BitVec 64}

theorem Window.close (h : Window d hist es) (hhist : hist.length + 1 < 2 ^ 31) :
    Close es d.sequence where
  ascending := h.ascending
  lt := h.lt
  near e he := by
    have hrecent := h.recent e he
    omega

theorem Window.length_le (h : Window d hist es) : es.length ≤ hist.length := by
  have hle := length_keep_le (limit d.capacity) hist
  rwa [← h.order, List.length_reverse, List.length_map] at hle

theorem Window.mem_iff (h : Window d hist es) :
    addr ∈ es.map ReuseEntry.address ↔ addr ∈ keep (limit d.capacity) (recency hist) := by
  rw [← h.order, List.mem_reverse]

theorem toNat_ofNat_length (h : Window d hist es) (hhist : hist.length + 1 < 2 ^ 31) {n : Nat}
    (hn : n ≤ es.length + 1) : (BitVec.ofNat 64 n).toNat = n := by
  have hle := h.length_le
  exact Nat.mod_eq_of_lt (by omega)

/-- The end of an access: the address is put behind the entries that are left. -/
theorem Window.finish (h : Window d hist es) (hhist : hist.length + 1 < 2 ^ 31)
    (hseq : d.sequence.toNat + 1 < 2 ^ 64) (d' : ReuseDistance) {es' : List ReuseEntry}
    (hholds : Holds d'.window d'.mwindow es') (hsub : es'.Sublist es)
    (hcapacity : d'.capacity = d.capacity) (hsequence : d'.sequence = d.sequence)
    (hcurrent : d'.current = BitVec.ofNat 64 (es'.length + 1))
    (haddr : addr ∉ es'.map ReuseEntry.address)
    (horder : addr :: (es'.map ReuseEntry.address).reverse =
      use (limit d.capacity) addr (keep (limit d.capacity) (recency hist))) :
    ∃ t m, d'.insertLast addr =
        some { d' with window := t, mwindow := m, sequence := d.sequence + 1 } ∧
      Window { d' with window := t, mwindow := m, sequence := d.sequence + 1 } (addr :: hist)
        (es' ++ [⟨d.sequence, addr⟩]) := by
  have hclose : Close es' d'.sequence := hsequence ▸ (h.close hhist).sublist hsub
  obtain ⟨t, m, heq, hholds'⟩ := hholds.insertLast hclose haddr (hcurrent ▸ BitVec.le_refl _)
  have hnext : (d.sequence + 1).toNat = d.sequence.toNat + 1 := by
    rw [BitVec.toNat_add]
    exact Nat.mod_eq_of_lt hseq
  rw [hsequence] at heq hholds'
  refine ⟨t, m, heq, hholds', ?_, ?_, ?_, ?_, ?_, ?_⟩
  · rw [List.map_append, List.reverse_append]
    dsimp only
    rw [hcapacity, ← use_keep (limit_ne_zero _)]
    exact horder
  · refine List.pairwise_append.mpr ⟨hclose.ascending, List.pairwise_singleton _ _, ?_⟩
    intro e he z hz
    obtain rfl := List.mem_singleton.mp hz
    exact h.lt e (hsub.subset he)
  · dsimp only
    rw [hnext]
    intro e he
    obtain he | he := List.mem_append.mp he
    · exact Nat.lt_succ_of_lt (h.lt e (hsub.subset he))
    · obtain rfl := List.mem_singleton.mp he
      exact Nat.lt_succ_self _
  · dsimp only
    rw [hnext, List.length_cons]
    intro e he
    obtain he | he := List.mem_append.mp he
    · have hrecent := h.recent e (hsub.subset he)
      omega
    · obtain rfl := List.mem_singleton.mp he
      dsimp only
      omega
  · dsimp only
    rw [hnext, List.length_cons]
    exact Nat.succ_lt_succ h.start
  · dsimp only
    rw [hcurrent, List.length_append]
    rfl

/-- The entries behind the one of an address give its reuse distance. -/
theorem Window.distance {a b : List ReuseEntry} {x : ReuseEntry} (h : Window d hist (a ++ x :: b)) :
    b.length + 1 = reuseDistance hist x.address := by
  have hmem : x.address ∈ keep (limit d.capacity) (recency hist) := by
    rw [← h.mem_iff]
    exact List.mem_map_of_mem (List.mem_append_right _ List.mem_cons_self)
  have hdistinct := h.holds.distinct
  have hnot : x.address ∉ (b.map ReuseEntry.address).reverse := by
    rw [List.map_append, List.map_cons] at hdistinct
    rw [List.mem_reverse]
    exact (List.nodup_cons.mp (List.nodup_append.mp hdistinct).2.1).1
  rw [← idxOf_keep_recency hmem, ← h.order, List.map_append, List.map_cons, List.reverse_append,
    List.reverse_cons, List.append_assoc, List.idxOf_append_of_notMem hnot, List.length_reverse,
    List.length_map]
  simp

theorem update_eq {id dist : BitVec 64} {stats : StatsMap}
    (h : StatsMap.update d.newStats d.stats id dist = some stats) :
    d.update id dist = some { d with stats } := by
  rw [ReuseDistance.update, h]
  rfl

/-- After an access: the address is the last one used, and its distance has been counted. -/
def Accessed (d : ReuseDistance) (hist : List (BitVec 64)) (seen : List (BitVec 64 × Nat))
    (r : ReuseEntry) (d' : ReuseDistance) : Prop :=
  (∃ es, Window d' (r.address :: hist) es) ∧
    StatsMap.Counted d.newStats d'.stats (seen ++ [(r.id, found d.capacity hist r.address)]) ∧
    d'.sequence = d.sequence + 1 ∧ d'.capacity = d.capacity ∧ d'.newStats = d.newStats

/-- An access to an address in the window. -/
theorem process_hit {seen : List (BitVec 64 × Nat)} {r : ReuseEntry} (h : Window d hist es)
    (hcounted : StatsMap.Counted d.newStats d.stats seen) (hhist : hist.length + 1 < 2 ^ 31)
    (hseq : d.sequence.toNat + 1 < 2 ^ 64)
    (hmem : r.address ∈ keep (limit d.capacity) (recency hist)) :
    ∃ d', d.process r = some d' ∧ Accessed d hist seen r d' := by
  obtain ⟨e, he, heq⟩ := List.mem_map.mp (h.mem_iff.mpr hmem)
  obtain ⟨s, address⟩ := e
  obtain rfl : address = r.address := heq
  obtain ⟨a, b, rfl, hfind⟩ := h.holds.find (h.close hhist) he
  have hlookup : d.mwindow.lookup r.address = some s := (h.holds.lookup _ _).mpr he
  have hs : s ≠ 0 := fun hzero => by
    have hrecent := h.recent _ he
    have hstart := h.start
    rw [show (⟨s, r.address⟩ : ReuseEntry).id = 0 from hzero] at hrecent
    simp at hrecent
    omega
  have hlen : (a ++ ⟨s, r.address⟩ :: b).length = a.length + (b.length + 1) := by
    rw [List.length_append, List.length_cons]
  -- what is counted is the number of the entries from this one on
  have hdist : d.current - BitVec.ofNat 64 a.length =
      BitVec.ofNat 64 (found d.capacity hist r.address) := by
    have hfound : found d.capacity hist r.address = b.length + 1 := by
      rw [found, if_pos (mem_keep_limit.mp hmem), h.distance]
    rw [h.current, hfound, hlen, BitVec.ofNat_add, BitVec.add_comm, BitVec.add_sub_cancel]
  have hguard : d.capacity = infinityReuse ∨
      d.current - BitVec.ofNat 64 a.length ≤ d.capacity := by
    refine (mem_keep_limit.mp hmem).2.imp_right fun hle => ?_
    rw [hdist, found, if_pos (mem_keep_limit.mp hmem), BitVec.le_def, ← h.distance,
      toNat_ofNat_length h hhist (by omega), h.distance]
    exact hle
  obtain ⟨stats, hstats, hcounted'⟩ := hcounted.update r.id (found d.capacity hist r.address)
  have hupdate := update_eq hstats
  obtain ⟨t, hrecycle, hholds⟩ :=
    Holds.recycle (d := { d with stats }) (x := ⟨s, r.address⟩) h.holds hs
  have hdistinct := h.holds.distinct
  rw [List.map_append, List.map_cons] at hdistinct
  have hnot : r.address ∉ (a ++ b).map ReuseEntry.address := by
    rw [List.map_append]
    exact (List.nodup_cons.mp (List.nodup_middle.mp hdistinct)).1
  have horder : r.address :: ((a ++ b).map ReuseEntry.address).reverse =
      use (limit d.capacity) r.address (keep (limit d.capacity) (recency hist)) := by
    have hself : ((a ++ b).map ReuseEntry.address).reverse.filter (· ≠ r.address) =
        ((a ++ b).map ReuseEntry.address).reverse :=
      List.filter_eq_self.mpr fun c hc => decide_eq_true fun hcr =>
        hnot (List.mem_reverse.mp (hcr ▸ hc))
    rw [use, if_pos hmem, ← h.order, ← hself]
    simp
  obtain ⟨t', m, hinsert, hwindow⟩ := h.finish hhist hseq
    { d with stats, window := t, mwindow := d.mwindow.erase r.address }
    hholds ((List.sublist_cons_self _ b).append_left a) rfl rfl
    (by rw [h.current, hlen, List.length_append]; rfl) hnot horder
  refine ⟨_, ?_, ⟨_, hwindow⟩, hcounted', rfl, rfl, rfl⟩
  rw [hdist] at hguard
  simp only [process, hlookup, hfind, Option.bind_eq_bind, Option.bind_some, guard_of hguard, hdist,
    hupdate, Option.pure_def]
  rw [if_pos (.inl hs)]
  exact (congrArg (fun o : Option ReuseDistance => o.bind fun d => d.insertLast r.address)
    hrecycle).trans hinsert

/-- An access to an address that is not in the window. -/
theorem process_miss {seen : List (BitVec 64 × Nat)} {r : ReuseEntry} (h : Window d hist es)
    (hcounted : StatsMap.Counted d.newStats d.stats seen) (hhist : hist.length + 1 < 2 ^ 31)
    (hseq : d.sequence.toNat + 1 < 2 ^ 64)
    (hmem : r.address ∉ keep (limit d.capacity) (recency hist)) :
    ∃ d', d.process r = some d' ∧ Accessed d hist seen r d' := by
  have hnot : r.address ∉ es.map ReuseEntry.address := mt h.mem_iff.mp hmem
  have hlookup : d.mwindow.lookup r.address = none := h.holds.lookup_none.mpr hnot
  have hfound : found d.capacity hist r.address = 0 := if_neg (mt mem_keep_limit.mpr hmem)
  obtain ⟨stats, hstats, hcounted'⟩ := hcounted.update r.id 0
  have hupdate : d.update r.id infinityReuse = some { d with stats } := update_eq hstats
  rw [← hfound] at hcounted'
  have hcurrent : d.current.toNat = es.length := by
    rw [h.current, toNat_ofNat_length h hhist (Nat.le_succ _)]
  have hkeep : (keep (limit d.capacity) (recency hist)).length = es.length := by
    rw [← h.order, List.length_reverse, List.length_map]
  by_cases hfull : d.capacity ≠ infinityReuse ∧ d.capacity ≤ d.current
  · -- the first entry, which is the oldest, goes
    have hle : d.capacity.toNat ≤ es.length := by
      have hle := BitVec.le_def.mp hfull.2
      rwa [hcurrent] at hle
    have hcap : d.capacity.toNat ≠ 0 := fun hzero => hfull.1 (BitVec.eq_of_toNat_eq hzero)
    have hlimit : limit d.capacity = some es.length := by
      have hge : es.length ≤ d.capacity.toNat := by
        rw [← hkeep, limit, if_neg hfull.1, keep, List.length_take]
        exact Nat.min_le_left _ _
      rw [limit, if_neg hfull.1, Nat.le_antisymm hle hge]
    obtain ⟨x, b, rfl⟩ := List.exists_cons_of_length_pos (Nat.lt_of_lt_of_le (Nat.pos_of_ne_zero hcap) hle)
    have hx : x.id ≠ 0 := fun hzero => by
      have hrecent := h.recent x List.mem_cons_self
      have hstart := h.start
      rw [hzero] at hrecent
      simp at hrecent
      omega
    obtain ⟨t, hrecycle, hholds⟩ := Holds.recycle (d := { d with stats }) (a := []) h.holds hx
    have horder : r.address :: (b.map ReuseEntry.address).reverse =
        use (limit d.capacity) r.address (keep (limit d.capacity) (recency hist)) := by
      rw [use, if_neg hmem, hkeep, if_pos hlimit, ← h.order, List.map_cons, List.reverse_cons,
        List.dropLast_concat]
    obtain ⟨t', m, hinsert, hwindow⟩ := h.finish hhist hseq
      { d with stats, window := t, mwindow := d.mwindow.erase x.address }
      hholds (List.sublist_cons_self x b) rfl rfl h.current
      (fun hin => hnot (List.mem_cons_of_mem _ hin)) horder
    refine ⟨_, ?_, ⟨_, hwindow⟩, hcounted', rfl, rfl, rfl⟩
    simp only [process, hlookup, hupdate, Option.bind_eq_bind, Option.bind_some, Option.pure_def]
    rw [if_pos (.inr hfull)]
    exact (congrArg (fun o : Option ReuseDistance => o.bind fun d => d.insertLast r.address)
      hrecycle).trans hinsert
  · have hlimit : limit d.capacity ≠ some (keep (limit d.capacity) (recency hist)).length := by
      rw [hkeep]
      intro heq
      rw [limit] at heq
      split at heq
      · exact absurd heq.symm (Option.some_ne_none _)
      · rename_i hinf
        refine hfull ⟨hinf, BitVec.le_def.mpr ?_⟩
        rw [Option.some.inj heq, hcurrent]
    have horder : r.address :: (es.map ReuseEntry.address).reverse =
        use (limit d.capacity) r.address (keep (limit d.capacity) (recency hist)) := by
      rw [use, if_neg hmem, if_neg hlimit, ← h.order]
    have hnext : d.current + 1 = BitVec.ofNat 64 (es.length + 1) := by
      rw [h.current, BitVec.ofNat_add]
      rfl
    obtain ⟨t', m, hinsert, hwindow⟩ := h.finish hhist hseq
      { d with stats, current := d.current + 1 } h.holds (List.Sublist.refl es) rfl rfl
      hnext hnot horder
    refine ⟨_, ?_, ⟨_, hwindow⟩, hcounted', rfl, rfl, rfl⟩
    simp only [process, hlookup, hupdate, Option.bind_eq_bind, Option.bind_some, Option.pure_def]
    rw [if_neg (not_or.mpr ⟨fun hzero => hzero rfl, hfull⟩)]
    exact hinsert

/-- An access keeps the window, and counts the distance. -/
theorem Window.process {seen : List (BitVec 64 × Nat)} (r : ReuseEntry) (h : Window d hist es)
    (hcounted : StatsMap.Counted d.newStats d.stats seen) (hhist : hist.length + 1 < 2 ^ 31)
    (hseq : d.sequence.toNat + 1 < 2 ^ 64) :
    ∃ d', d.process r = some d' ∧ Accessed d hist seen r d' := by
  by_cases hmem : r.address ∈ keep (limit d.capacity) (recency hist)
  · exact process_hit h hcounted hhist hseq hmem
  · exact process_miss h hcounted hhist hseq hmem

end Access

/-! ## Emptying the window -/

theorem flush_spec {n : Nat} {window : Tree234 ReuseEntry} (hbal : window.Balanced)
    (hlen : window.toList.length = n) :
    (flush n window).Balanced ∧ (flush n window).toList = [] := by
  induction n generalizing window with
  | zero => exact ⟨hbal, List.length_eq_zero_iff.mp hlen⟩
  | succ n ih =>
    have hpos : 0 < window.toList.length := by
      rw [hlen]
      exact Nat.succ_pos n
    obtain ⟨x, t, hdel, hbal', a, b, hlist, ha, hlist'⟩ := delpos234_spec hbal hpos
    obtain rfl := List.length_eq_zero_iff.mp ha
    have hlen' : t.toList.length = n := by
      rw [hlist, List.nil_append, List.length_cons] at hlen
      rw [hlist', List.nil_append]
      exact Nat.succ.inj hlen
    rw [flush, hdel]
    exact ih hbal' hlen'

theorem Window.skipAddresses {d : ReuseDistance} {hist : List (BitVec 64)} {es : List ReuseEntry}
    {amount : BitVec 64} (h : Window d hist es) (hhist : hist.length < 2 ^ 31)
    (hseq : d.sequence.toNat + amount.toNat < 2 ^ 64) :
    ∃ t, d.skipAddresses amount = some { d with
        window := t, mwindow := ∅, current := 0, sequence := d.sequence + amount } ∧
      Window { d with window := t, mwindow := ∅, current := 0, sequence := d.sequence + amount }
        [] [] := by
  have hlen : d.current.toNat = es.length := by
    have hle := h.length_le
    rw [h.current]
    exact Nat.mod_eq_of_lt (by omega)
  obtain ⟨hbal, hlist⟩ := flush_spec (n := d.current.toNat) h.holds.balanced
    ((congrArg List.length h.holds.list).trans hlen.symm)
  have hcount : count234 (flush d.current.toNat d.window) = 0 :=
    (Ok.countnode hbal).trans (congrArg List.length hlist)
  have hnext : (d.sequence + amount).toNat = d.sequence.toNat + amount.toNat := by
    rw [BitVec.toNat_add]
    exact Nat.mod_eq_of_lt hseq
  refine ⟨flush d.current.toNat d.window, ?_, ⟨hbal, hlist, List.nodup_nil, fun a s => ?_, rfl⟩, ?_,
    List.Pairwise.nil, ?_, ?_, ?_, rfl⟩
  · simp only [ReuseDistance.skipAddresses, Option.bind_eq_bind, guard_of hcount, Option.bind_some,
      Option.pure_def]
  · simp
  · rw [limit]
    split
    · rfl
    · exact List.take_nil.symm
  · exact fun e he => absurd he List.not_mem_nil
  · exact fun e he => absurd he List.not_mem_nil
  · have hstart := h.start
    dsimp only
    rw [hnext, List.length_nil]
    omega

/-! ## Runs -/

/-- What is done with a `ReuseDistance`. -/
inductive Event where
  | process (r : ReuseEntry)
  | skip (amount : BitVec 64)

/-- A `ReuseDistance` after an event. -/
def step (d : ReuseDistance) : Event → Option ReuseDistance
  | .process r => d.process r
  | .skip amount => d.skipAddresses amount

/-- A `ReuseDistance` after events. -/
def run (d : ReuseDistance) (events : List Event) : Option ReuseDistance := events.foldlM step d

/-- The addresses since the window was last emptied, the newest first. -/
def history : List (BitVec 64) → List Event → List (BitVec 64)
  | hist, [] => hist
  | hist, .process r :: events => history (r.address :: hist) events
  | _, .skip _ :: events => history [] events

/-- The id of every access, and its distance. -/
def accesses (capacity : BitVec 64) : List (BitVec 64) → List Event → List (BitVec 64 × Nat)
  | _, [] => []
  | hist, .process r :: events =>
    (r.id, found capacity hist r.address) :: accesses capacity (r.address :: hist) events
  | _, .skip _ :: events => accesses capacity [] events

/-- Fewer than `2 ^ 31` accesses between two flushes, and a sequence number that does not wrap. -/
def Fits : List (BitVec 64) → Nat → List Event → Prop
  | _, _, [] => True
  | hist, clock, .process r :: events =>
    hist.length + 1 < 2 ^ 31 ∧ clock + 1 < 2 ^ 64 ∧ Fits (r.address :: hist) (clock + 1) events
  | _, clock, .skip amount :: events =>
    clock + amount.toNat < 2 ^ 64 ∧ Fits [] (clock + amount.toNat) events

section Runs

variable {d : ReuseDistance} {hist : List (BitVec 64)} {es : List ReuseEntry}
  {seen : List (BitVec 64 × Nat)}

theorem run_spec {events : List Event} (h : Window d hist es)
    (hcounted : StatsMap.Counted d.newStats d.stats seen) (hlen : hist.length < 2 ^ 31)
    (hfits : Fits hist d.sequence.toNat events) :
    ∃ d' es', d.run events = some d' ∧ Window d' (history hist events) es' ∧
      StatsMap.Counted d.newStats d'.stats (seen ++ accesses d.capacity hist events) ∧
      d'.capacity = d.capacity := by
  induction events generalizing d hist es seen with
  | nil =>
    refine ⟨d, es, rfl, h, ?_, rfl⟩
    rw [accesses, List.append_nil]
    exact hcounted
  | cons event events ih =>
    cases event with
    | process r =>
      obtain ⟨hhist, hseq, hfits⟩ := hfits
      obtain ⟨d₁, hprocess, ⟨es₁, hwindow⟩, hcounted₁, hsequence, hcapacity, hnew⟩ :=
        h.process r hcounted hhist hseq
      have hnext : d₁.sequence.toNat = d.sequence.toNat + 1 := by
        rw [hsequence, BitVec.toNat_add]
        exact Nat.mod_eq_of_lt hseq
      rw [← hnew] at hcounted₁
      obtain ⟨d', es', hrun, hwindow', hcounted', hcapacity'⟩ :=
        ih hwindow hcounted₁ hhist (hnext ▸ hfits)
      rw [hcapacity] at hcounted' hcapacity'
      rw [hnew] at hcounted'
      refine ⟨d', es', ?_, hwindow', ?_, hcapacity'⟩
      · rw [run, List.foldlM_cons, step, hprocess]
        exact hrun
      · rw [List.append_assoc] at hcounted'
        exact hcounted'
    | skip amount =>
      obtain ⟨hseq, hfits⟩ := hfits
      obtain ⟨t, hskip, hwindow⟩ := h.skipAddresses hlen hseq
      have hnext : (d.sequence + amount).toNat = d.sequence.toNat + amount.toNat := by
        rw [BitVec.toNat_add]
        exact Nat.mod_eq_of_lt hseq
      obtain ⟨d', es', hrun, hwindow', hcounted', hcapacity'⟩ :=
        ih hwindow hcounted (Nat.two_pow_pos 31) (hnext ▸ hfits)
      refine ⟨d', es', ?_, hwindow', hcounted', hcapacity'⟩
      rw [run, List.foldlM_cons, step, hskip]
      exact hrun

theorem window_init (w b : BitVec 64) : Window (init w b) [] [] where
  holds := ⟨trivial, rfl, List.nodup_nil, by simp [init], rfl⟩
  order := by
    rw [limit]
    split
    · rfl
    · exact List.take_nil.symm
  ascending := List.Pairwise.nil
  lt _ he := absurd he List.not_mem_nil
  recent _ he := absurd he List.not_mem_nil
  start := Nat.zero_lt_one
  current := rfl

/-- A run from the start. -/
theorem run_init (w b : BitVec 64) {events : List Event} (hfits : Fits [] 1 events) :
    ∃ d es, (init w b).run events = some d ∧ Window d (history [] events) es ∧
      StatsMap.Counted (init w b).newStats d.stats (accesses w [] events) ∧
      d.capacity = w :=
  run_spec (window_init w b) (StatsMap.counted_empty _) (Nat.two_pow_pos 31) hfits

theorem history_length {events : List Event} {clock : Nat} (hlen : hist.length < 2 ^ 31)
    (hfits : Fits hist clock events) : (history hist events).length < 2 ^ 31 := by
  induction events generalizing hist clock with
  | nil => exact hlen
  | cons event events ih =>
    cases event with
    | process r => exact ih hfits.1 hfits.2.2
    | skip amount => exact ih (Nat.two_pow_pos 31) hfits.2

/-- The active addresses are those of the window, the oldest first. -/
theorem Window.getActiveAddresses (h : Window d hist es) (hlen : hist.length < 2 ^ 31) :
    d.getActiveAddresses = some (es.map ReuseEntry.address) := by
  have hcurrent : d.current.toNat = es.length := by
    have hle := h.length_le
    rw [h.current]
    exact Nat.mod_eq_of_lt (by omega)
  have hindex : ∀ i ∈ List.range es.length, (index234 d.window i).map ReuseEntry.address =
      some ((es.map ReuseEntry.address).getD i 0) := fun i hi => by
    have hlt : i < es.length := List.mem_range.mp hi
    rw [index234_eq h.holds.balanced, h.holds.list, List.getD_eq_getElem?_getD, List.getElem?_map,
      List.getElem?_eq_getElem hlt]
    rfl
  rw [ReuseDistance.getActiveAddresses, hcurrent, mapM_eq_some_map hindex]
  congr 1
  refine List.ext_getElem (by simp) fun i h₁ h₂ => ?_
  simp [List.getD_eq_getElem?_getD, List.getElem?_eq_getElem (List.length_map _ ▸ h₂)]

end Runs

/-! ## The report -/

section Report

variable {w b : BitVec 64} {hist : List (BitVec 64)} {events : List Event}

theorem reuseDistance_le {addr : BitVec 64} (h : addr ∈ hist) :
    reuseDistance hist addr ≤ hist.length := by
  have hlt := List.idxOf_lt_length_of_mem (mem_recency.mpr h)
  have hle := length_keep_le none hist
  rw [keep] at hle
  rw [← idxOf_recency]
  omega

theorem of_mem_accesses {clock : Nat}
    {x : BitVec 64 × Nat} (hfits : Fits hist clock events) (hx : x ∈ accesses w hist events) :
    x.2 < 2 ^ 31 ∧ (w = infinityReuse ∨ x.2 ≤ w.toNat) := by
  induction events generalizing hist clock with
  | nil => exact absurd hx List.not_mem_nil
  | cons event events ih =>
    cases event with
    | process r =>
      obtain ⟨hhist, -, hfits⟩ := hfits
      obtain rfl | hx := List.mem_cons.mp hx
      · dsimp only
        rw [found]
        split
        · rename_i h
          have hle := reuseDistance_le h.1
          exact ⟨by omega, h.2⟩
        · exact ⟨Nat.two_pow_pos 31, .inr (Nat.zero_le _)⟩
      · exact ih hfits hx
    | skip amount => exact ih hfits.2 hx

/-- The statistics track the distances that are not 0. -/
theorem seen_accesses (hfits : Fits hist 1 events) (hlen : (accesses w hist events).length < 2 ^ 32)
    (hbin : ∀ x ∈ accesses w hist events, b = infinityReuse ∨ x.2 ≤ b.toNat ∨ x.2 ≤ 2 ^ 30) :
    StatsMap.Seen (init w b).newStats (· = 0) (accesses w hist events) := by
  have htoNat : ∀ x ∈ accesses w hist events, (BitVec.ofNat 64 x.2).toNat = x.2 := fun x hx =>
    Nat.mod_eq_of_lt (Nat.lt_trans (of_mem_accesses hfits hx).1 (by decide))
  refine ⟨fun id => ⟨b, w, infinityReuse, rfl, .inl rfl⟩, hlen, fun id x hx _ => ?_, fun id x hx => ?_⟩
  · rw [ReuseStats.Individual, BitVec.le_def, htoNat x hx, or_assoc]
    exact hbin x hx
  · have hne : BitVec.ofNat 64 x.2 ≠ infinityReuse ↔ ¬decide (x.2 = 0) = true := by
      rw [Ne, ← BitVec.toNat_inj, htoNat x hx, decide_eq_true_eq]
      rfl
    have hle : w = infinityReuse ∨ BitVec.ofNat 64 x.2 ≤ w := by
      rw [BitVec.le_def, htoNat x hx]
      exact (of_mem_accesses hfits hx).2
    exact (and_iff_left hle).trans hne

end Report

end ReuseDistance

end Pebil
