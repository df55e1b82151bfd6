import Pebil.Reuse.ReuseDistanceCorrect
import Pebil.Reuse.SpatialLocality

/-!
# The closest address is found

The addresses of the window are those of the last accesses, as many as the capacity says, and the
distance of an access is the least difference from one of them that is another address. The
difference is a signed one, and so the addresses are to be below `2 ^ 63`.
-/

namespace Pebil

namespace SpatialLocality

/-! ## Looking for the closest address -/

section Look

/-- How far two addresses are from each other. -/
def apart (a b : BitVec 64) : Nat := (a.toNat - b.toNat) + (b.toNat - a.toNat)

variable {a b addr : BitVec 64} {l : List (BitVec 64)}

theorem uint64abs_sub (ha : a.toNat < 2 ^ 63) (hb : b.toNat < 2 ^ 63) :
    (uint64abs (a - b)).toNat = apart a b := by
  have hsub := BitVec.toNat_sub a b
  rw [uint64abs, apart]
  split
  · rename_i h
    have hlt : (a - b).toNat < 2 ^ 63 := BitVec.lt_def.mp h
    omega
  · rename_i h
    have hle : 2 ^ 63 ≤ (a - b).toNat := Nat.le_of_not_lt fun hlt => h (BitVec.lt_def.mpr hlt)
    rw [BitVec.toNat_sub]
    have hzero : (0 : BitVec 64).toNat = 0 := rfl
    omega

theorem apart_pos : 0 < apart a b ↔ a ≠ b := by
  rw [apart, Ne, ← BitVec.toNat_inj]
  omega

/-- The loop never goes up, and is at most the difference from each address that it comes to. -/
theorem look_le {n it : Nat} (best : BitVec 64) (hl : ∀ a ∈ l, a.toNat < 2 ^ 63)
    (haddr : addr.toNat < 2 ^ 63) (hit : it < l.length) :
    (look addr l n it best).toNat ≤ best.toNat ∧
      ∀ i a, l[i]? = some a → i ≤ it → it < i + n → a ≠ addr →
        (look addr l n it best).toNat ≤ apart a addr := by
  induction n generalizing it best with
  | zero => exact ⟨Nat.le_refl _, fun i a _ h h' => absurd h (Nat.not_le_of_lt h')⟩
  | succ n ih =>
    rw [look]
    cases hcur : l[it]? with
    | none => exact absurd hit (Nat.not_lt_of_le (List.getElem?_eq_none_iff.mp hcur))
    | some cur =>
      have hdiff := uint64abs_sub (hl cur (List.mem_of_getElem? hcur)) haddr
      dsimp only
      generalize hbest : (if 0 < uint64abs (cur - addr) ∧ uint64abs (cur - addr) < best then
        uint64abs (cur - addr) else best) = best'
      have hle : best'.toNat ≤ best.toNat := by
        rw [← hbest]
        split
        · rename_i h
          exact Nat.le_of_lt (BitVec.lt_def.mp h.2)
        · exact Nat.le_refl _
      have hself : cur ≠ addr → best'.toNat ≤ apart cur addr := fun hne => by
        have hpos : 0 < uint64abs (cur - addr) := by
          rw [BitVec.lt_def, hdiff]
          exact apart_pos.mpr hne
        rw [← hbest, ← hdiff]
        split
        · exact Nat.le_refl _
        · rename_i h
          exact Nat.le_of_not_lt fun hlt => h ⟨hpos, BitVec.lt_def.mpr hlt⟩
      split
      · rename_i hzero
        refine ⟨hle, fun i a hi hii _ hne => ?_⟩
        obtain rfl : i = it := by omega
        obtain rfl := Option.some.inj (hcur.symm.trans hi)
        exact hself hne
      · rename_i hzero
        obtain ⟨hrest, hall⟩ := ih best' (Nat.lt_of_le_of_lt (Nat.sub_le it 1) hit)
        refine ⟨Nat.le_trans hrest hle, fun i a hi hii hin hne => ?_⟩
        by_cases hit : i = it
        · subst hit
          obtain rfl := Option.some.inj (hcur.symm.trans hi)
          exact Nat.le_trans hrest (hself hne)
        · exact hall i a hi (by omega) (by omega) hne

/-- What the loop finds is a difference from another address, or what it began with. -/
theorem look_mem {n : Nat} (it : Nat) (best : BitVec 64) (hl : ∀ a ∈ l, a.toNat < 2 ^ 63)
    (haddr : addr.toNat < 2 ^ 63) :
    look addr l n it best = best ∨
      ∃ a ∈ l, a ≠ addr ∧ (look addr l n it best).toNat = apart a addr := by
  induction n generalizing it best with
  | zero => exact .inl rfl
  | succ n ih =>
    rw [look]
    cases hcur : l[it]? with
    | none => exact .inl rfl
    | some cur =>
      have hmem := List.mem_of_getElem? hcur
      have hdiff := uint64abs_sub (hl cur hmem) haddr
      dsimp only
      generalize hbest : (if 0 < uint64abs (cur - addr) ∧ uint64abs (cur - addr) < best then
        uint64abs (cur - addr) else best) = best'
      have hself : best' = best ∨ ∃ a ∈ l, a ≠ addr ∧ best'.toNat = apart a addr := by
        rw [← hbest]
        split
        · rename_i h
          have hpos := BitVec.lt_def.mp h.1
          rw [hdiff] at hpos
          exact .inr ⟨cur, hmem, apart_pos.mp hpos, hdiff⟩
        · exact .inl rfl
      split
      · exact hself
      · obtain heq | hfound := ih (it - 1) best'
        · rw [heq]
          exact hself
        · exact .inr hfound

/-- The distance to the closest other address of a window, or what stands for none. -/
def closest (w : List (BitVec 64)) (addr : BitVec 64) : Nat :=
  (((w.filter (· ≠ addr)).map (apart · addr)).min?).getD invalidSpatial.toNat

/-- A value that is a difference from another address of the window, and no more than any, or stands
for none where there is no other address. -/
theorem closest_eq {w : List (BitVec 64)} {n : Nat}
    (hmem : (∃ a ∈ w, a ≠ addr ∧ n = apart a addr) ∨ n = invalidSpatial.toNat ∧ ∀ a ∈ w, a = addr)
    (hle : ∀ a ∈ w, a ≠ addr → n ≤ apart a addr) : closest w addr = n := by
  rw [closest]
  obtain ⟨a, ha, hne, rfl⟩ | ⟨rfl, hall⟩ := hmem
  · have hmin : ((w.filter (· ≠ addr)).map (apart · addr)).min? = some (apart a addr) := by
      rw [List.min?_eq_some_iff]
      refine ⟨List.mem_map_of_mem (List.mem_filter.mpr ⟨ha, decide_eq_true hne⟩), fun m hm => ?_⟩
      obtain ⟨c, hc, rfl⟩ := List.mem_map.mp hm
      obtain ⟨hc, hne'⟩ := List.mem_filter.mp hc
      exact hle c hc (of_decide_eq_true hne')
    rw [hmin]
    rfl
  · have hnil : w.filter (· ≠ addr) = [] :=
      List.filter_eq_nil_iff.mpr fun a ha => by simpa using hall a ha
    rw [hnil]
    rfl

/-- Where the iterator starts, everything before it is not above the address, and everything behind
it is farther away. -/
theorem bestdiff_sorted (hsorted : l.Pairwise (· < ·)) (hl : ∀ a ∈ l, a.toNat < 2 ^ 63)
    (haddr : addr.toNat < 2 ^ 63) {it : Nat} (hit : it < l.length)
    (hbefore : ∀ i a, l[i]? = some a → i < it → a ≤ addr)
    (hbehind : it + 1 < l.length → ∀ a, l[it]? = some a → addr < a) :
    (look addr l 3 it invalidSpatial).toNat = closest l addr := by
  have hmono : ∀ (i j : Nat) (a b : BitVec 64), l[i]? = some a → l[j]? = some b → i < j → a.toNat < b.toNat :=
    fun i j a b ha hb hij => by
      obtain ⟨hi, rfl⟩ := List.getElem?_eq_some_iff.mp ha
      obtain ⟨hj, rfl⟩ := List.getElem?_eq_some_iff.mp hb
      exact BitVec.lt_def.mp (List.pairwise_iff_getElem.mp hsorted i j hi hj hij)
  obtain ⟨-, hvisited⟩ := look_le (n := 3) invalidSpatial hl haddr hit
  have hall : ∀ a ∈ l, a ≠ addr → (look addr l 3 it invalidSpatial).toNat ≤ apart a addr := by
    intro a ha hne
    obtain ⟨i, hi⟩ := List.mem_iff_getElem?.mp ha
    obtain ⟨hlt, -⟩ := List.getElem?_eq_some_iff.mp hi
    by_cases habove : it < i
    · -- the address at the iterator is above as well, and closer
      have hcur := List.getElem?_eq_getElem hit
      have hgt := BitVec.lt_def.mp (hbehind (by omega) _ hcur)
      have hle := hvisited it _ hcur (Nat.le_refl _) (by omega) fun h => by
        rw [h] at hgt
        omega
      have hia := hmono it i _ _ hcur hi habove
      rw [apart] at hle ⊢
      omega
    by_cases hbelow : i + 2 < it
    · -- the address two before the iterator is below as well, and closer
      have hcur := List.getElem?_eq_getElem (show it - 2 < l.length by omega)
      have hmid := List.getElem?_eq_getElem (show it - 1 < l.length by omega)
      have hle' := BitVec.le_def.mp (hbefore (it - 1) _ hmid (by omega))
      have hlt' := hmono (it - 2) (it - 1) _ _ hcur hmid (by omega)
      have hle := hvisited (it - 2) _ hcur (by omega) (by omega) fun h => by
        rw [h] at hlt'
        omega
      have hia := hmono i (it - 2) _ _ hi hcur (by omega)
      rw [apart] at hle ⊢
      omega
    · exact hvisited i a hi (by omega) (by omega) hne
  refine (closest_eq ?_ hall).symm
  obtain heq | ⟨a, ha, hne, heq⟩ := look_mem (n := 3) it invalidSpatial hl haddr
  · refine .inr ⟨congrArg BitVec.toNat heq, fun a ha => by_contra fun hne => ?_⟩
    have hle := hall a ha hne
    rw [heq, apart] at hle
    have hlt := hl a ha
    have hvalue : invalidSpatial.toNat = 2 ^ 64 - 1 := by decide
    omega
  · exact .inl ⟨a, ha, hne, heq⟩

/-- Only the addresses that are in the window matter, not how often. -/
theorem closest_congr {w w' : List (BitVec 64)} (hw : ∀ a, a ∈ w ↔ a ∈ w') :
    closest w addr = closest w' addr := by
  cases hmin : ((w'.filter (· ≠ addr)).map (apart · addr)).min? with
  | none =>
    have hnil : w'.filter (· ≠ addr) = [] := by simpa [List.min?_eq_none_iff] using hmin
    have hall : ∀ a ∈ w', a = addr := by simpa [List.filter_eq_nil_iff] using hnil
    have hclosest : closest w' addr = invalidSpatial.toNat := by rw [closest, hmin]; rfl
    exact closest_eq (.inr ⟨hclosest, fun a ha => hall a ((hw a).mp ha)⟩)
      fun a ha hne => absurd (hall a ((hw a).mp ha)) hne
  | some n =>
    obtain ⟨hmem, hle⟩ := List.min?_eq_some_iff.mp hmin
    have hclosest : closest w' addr = n := by rw [closest, hmin]; rfl
    obtain ⟨a, ha, rfl⟩ := List.mem_map.mp hmem
    obtain ⟨ha, hne⟩ := List.mem_filter.mp ha
    rw [hclosest]
    refine closest_eq (.inl ⟨a, (hw a).mpr ha, of_decide_eq_true hne, rfl⟩) fun c hc hne' => ?_
    exact hle _ (List.mem_map_of_mem (List.mem_filter.mpr ⟨(hw c).mp hc, decide_eq_true hne'⟩))

end Look

/-! ## The window -/

/-- `awindow` has the number of each address in a list. -/
def Counts (awindow : AList fun _ : BitVec 64 => BitVec 64) (w : List (BitVec 64)) : Prop :=
  ∀ a, awindow.lookup a = if a ∈ w then some (BitVec.ofNat 64 (w.count a)) else none

section Window

variable {awindow : AList fun _ : BitVec 64 => BitVec 64} {w : List (BitVec 64)}
  {a addr : BitVec 64}

theorem Counts.mem_keys (h : Counts awindow w) : a ∈ awindow.keys ↔ a ∈ w := by
  rw [← AList.mem_keys, ← AList.lookup_isSome, h a]
  split
  · rename_i hmem
    simp [hmem]
  · rename_i hmem
    simp [hmem]

theorem Counts.getD (h : Counts awindow w) :
    (awindow.lookup a).getD 0 = BitVec.ofNat 64 (w.count a) := by
  rw [h a]
  split
  · rfl
  · rename_i hmem
    rw [List.count_eq_zero_of_not_mem hmem]
    rfl

theorem Counts.leave (h : Counts awindow (a :: w)) (hlen : w.length + 1 < 2 ^ 64) :
    Counts (leave awindow a) w := by
  have hcount := List.count_le_length (a := a) (l := w)
  have hv : (awindow.lookup a).getD 0 = BitVec.ofNat 64 (w.count a + 1) := by
    rw [h.getD, List.count_cons_self]
  have htoNat : (BitVec.ofNat 64 (w.count a + 1)).toNat = w.count a + 1 :=
    Nat.mod_eq_of_lt (by omega)
  have hone : (1 : BitVec 64).toNat = 1 := rfl
  have hother : ∀ b, b ≠ a → (if b ∈ a :: w then some (BitVec.ofNat 64 ((a :: w).count b)) else none) =
      if b ∈ w then some (BitVec.ofNat 64 (w.count b)) else none := fun b hb => by
    rw [List.count_cons_of_ne (Ne.symm hb)]
    simp [hb]
  intro b
  rw [SpatialLocality.leave, hv]
  split
  · rename_i hlt
    have hpos : 0 < w.count a := by
      have hlt := BitVec.lt_def.mp hlt
      omega
    by_cases hb : b = a
    · subst hb
      rw [AList.lookup_insert, if_pos (List.count_pos_iff.mp hpos), BitVec.ofNat_add]
      exact congrArg some (BitVec.add_sub_cancel _ _)
    · rw [AList.lookup_insert_ne hb, h b]
      exact hother b hb
  · rename_i hlt
    have hzero : w.count a = 0 := Nat.eq_zero_of_not_pos fun hpos =>
      hlt (BitVec.lt_def.mpr (by omega))
    by_cases hb : b = a
    · subst hb
      rw [AList.lookup_erase, if_neg (List.count_eq_zero.mp hzero)]
    · rw [AList.lookup_erase_ne hb, h b]
      exact hother b hb

theorem Counts.insert (h : Counts awindow w) :
    Counts (awindow.insert a ((awindow.lookup a).getD 0 + 1)) (w ++ [a]) := by
  intro b
  by_cases hb : b = a
  · subst hb
    rw [AList.lookup_insert, h.getD, if_pos (List.mem_append_right _ List.mem_cons_self),
      List.count_append, List.count_singleton_self, BitVec.ofNat_add]
    rfl
  · rw [AList.lookup_insert_ne hb, h b, List.count_append,
      List.count_eq_zero_of_not_mem (l := [a]) (by simpa using hb), Nat.add_zero]
    simp [hb]

theorem Counts.flush (h : Counts awindow w) (hlen : w.length < 2 ^ 64) :
    Counts (flush awindow w) [] := by
  induction w generalizing awindow with
  | nil => exact h
  | cons a w ih => exact ih (h.leave hlen) (Nat.lt_trans (Nat.lt_succ_self _) hlen)

/-- The closest address of a window is found. -/
theorem bestdiff_eq {d : SpatialLocality} (h : Counts d.awindow w)
    (hw : ∀ a ∈ w, a.toNat < 2 ^ 63) (haddr : addr.toNat < 2 ^ 63) :
    d.bestdiff addr = BitVec.ofNat 64 (closest w addr) := by
  have hmem : ∀ a, a ∈ d.addresses ↔ a ∈ w := fun a =>
    (List.mem_insertionSort _).trans h.mem_keys
  have hl : ∀ a ∈ d.addresses, a.toNat < 2 ^ 63 := fun a ha => hw a ((hmem a).mp ha)
  rw [← closest_congr hmem, bestdiff]
  dsimp only
  split
  · rename_i hzero
    rw [List.length_eq_zero_iff.mp hzero]
    rfl
  · rename_i hne
    have hbefore : ∀ i a, d.addresses[i]? = some a → i < d.addresses.findIdx (addr < ·) → a ≤ addr :=
      fun i a hi hlt => by
        obtain ⟨hi, rfl⟩ := List.getElem?_eq_some_iff.mp hi
        have hnot := List.not_of_lt_findIdx hlt
        exact BitVec.not_lt.mp (by simpa using hnot)
    have hle : d.addresses.findIdx (addr < ·) ≤ d.addresses.length := List.findIdx_le_length
    have hsorted : d.addresses.Pairwise (· < ·) := pairwise_keys d.awindow
    have hpos : 0 < d.addresses.length := Nat.pos_of_ne_zero hne
    have hlook : (look addr d.addresses 3 (if d.addresses.findIdx (addr < ·) = d.addresses.length then
        d.addresses.findIdx (addr < ·) - 1 else d.addresses.findIdx (addr < ·)) invalidSpatial).toNat =
          closest d.addresses addr := by
      split
      · -- no address is above
        refine bestdiff_sorted hsorted hl haddr (by omega)
          (fun i a hi hlt => hbefore i a hi (by omega)) fun hlt => ?_
        omega
      · have hit : d.addresses.findIdx (addr < ·) < d.addresses.length := by omega
        refine bestdiff_sorted hsorted hl haddr hit hbefore fun _ a ha => ?_
        obtain ⟨-, rfl⟩ := List.getElem?_eq_some_iff.mp ha
        exact of_decide_eq_true (List.findIdx_getElem (w := hit))
    rw [← hlook, BitVec.ofNat_toNat, BitVec.setWidth_eq]

end Window

/-! ## Runs -/

/-- A `SpatialLocality` after an event. -/
def step (d : SpatialLocality) : ReuseDistance.Event → Option SpatialLocality
  | .process r => d.process r
  | .skip amount => d.skipAddresses amount

/-- A `SpatialLocality` after events. -/
def run (d : SpatialLocality) (events : List ReuseDistance.Event) : Option SpatialLocality :=
  events.foldlM step d

/-- The id of every access, and its distance to the closest of the last addresses. -/
def accesses (capacity : Nat) :
    List (BitVec 64) → List ReuseDistance.Event → List (BitVec 64 × Nat)
  | _, [] => []
  | hist, .process r :: events =>
    (r.id, closest (hist.take capacity) r.address) :: accesses capacity (r.address :: hist) events
  | _, .skip _ :: events => accesses capacity [] events

/-- The last accesses of a history. -/
structure Last (d : SpatialLocality) (hist : List (BitVec 64)) : Prop where
  order : d.swindow = (hist.take d.capacity.toNat).reverse
  counts : Counts d.awindow d.swindow
  pos : 0 < d.capacity.toNat

section Runs

variable {d : SpatialLocality} {hist : List (BitVec 64)} {seen : List (BitVec 64 × Nat)}
  {size bin max : BitVec 64}

theorem Last.length_le (h : Last d hist) : d.swindow.length ≤ d.capacity.toNat := by
  rw [h.order, List.length_reverse]
  exact List.length_take_le _ _

theorem Last.mem_iff (h : Last d hist) (a : BitVec 64) :
    a ∈ d.swindow ↔ a ∈ hist.take d.capacity.toNat := by
  rw [h.order, List.mem_reverse]

/-- The window before the new address is put into it. -/
theorem Last.popFront (h : Last d hist) :
    ∃ awindow swindow, (if d.capacity ≤ BitVec.ofNat 64 d.swindow.length then d.popFront else d) =
        { d with awindow, swindow } ∧ Counts awindow swindow ∧
      ∀ addr, swindow ++ [addr] = ((addr :: hist).take d.capacity.toNat).reverse := by
  have hlt := d.capacity.isLt
  have hlen := h.length_le
  have hpos := h.pos
  have htoNat : (BitVec.ofNat 64 d.swindow.length).toNat = d.swindow.length :=
    Nat.mod_eq_of_lt (by omega)
  obtain ⟨n, hn⟩ : ∃ n, d.capacity.toNat = n + 1 := Nat.exists_eq_succ_of_ne_zero (by omega)
  have hlength : d.swindow.length = min (n + 1) hist.length := by
    rw [h.order, List.length_reverse, List.length_take, hn]
  split
  · rename_i hfull
    have hge : n + 1 ≤ d.swindow.length := by
      rw [← hn, ← htoNat]
      exact BitVec.le_def.mp hfull
    -- the first of the window is the oldest of those that are in it
    obtain ⟨a, w, hw⟩ := List.exists_cons_of_length_pos (Nat.lt_of_lt_of_le (Nat.succ_pos n) hge)
    have hrest : w = (hist.take n).reverse := by
      have htail : w = ((hist.take (n + 1)).dropLast).reverse := by
        rw [← List.tail_reverse, ← hn, ← h.order, hw]
        rfl
      rw [htail, List.dropLast_take_eq_take_dropLast, Nat.add_sub_cancel, List.dropLast_eq_take,
        List.take_take, Nat.min_eq_left (by omega)]
    have hcounts := h.counts
    rw [hw] at hcounts hlen
    refine ⟨leave d.awindow a, w, ?_, hcounts.leave ?_, fun addr => ?_⟩
    · rw [SpatialLocality.popFront, hw]
    · rw [List.length_cons] at hlen
      omega
    · rw [hn, List.take_succ_cons, List.reverse_cons, hrest]
  · rename_i hfree
    have hlt' : d.swindow.length < n + 1 := by
      rw [← hn, ← htoNat]
      exact BitVec.lt_def.mp (BitVec.not_le.mp hfree)
    refine ⟨d.awindow, d.swindow, rfl, h.counts, fun addr => ?_⟩
    rw [h.order, hn, List.take_succ_cons, List.reverse_cons, List.take_of_length_le (by omega),
      List.take_of_length_le (by omega)]

/-- An access. -/
theorem Last.process (h : Last d hist) (hcounted : StatsMap.Counted d.newStats d.stats seen)
    (r : ReuseEntry) (hhist : ∀ a ∈ hist, a.toNat < 2 ^ 63) (haddr : r.address.toNat < 2 ^ 63) :
    ∃ d', d.process r = some d' ∧ Last d' (r.address :: hist) ∧
      StatsMap.Counted d.newStats d'.stats
        (seen ++ [(r.id, closest (hist.take d.capacity.toNat) r.address)]) ∧
      d'.newStats = d.newStats ∧ d'.capacity = d.capacity := by
  have hw : ∀ a ∈ d.swindow, a.toNat < 2 ^ 63 := fun a ha =>
    hhist a (List.mem_of_mem_take ((h.mem_iff a).mp ha))
  have hbest : d.bestdiff r.address =
      BitVec.ofNat 64 (closest (hist.take d.capacity.toNat) r.address) := by
    rw [bestdiff_eq h.counts hw haddr, closest_congr h.mem_iff]
  obtain ⟨stats, hstats, hcounted'⟩ :=
    hcounted.update r.id (closest (hist.take d.capacity.toNat) r.address)
  have h' : Last { d with stats } hist := ⟨h.order, h.counts, h.pos⟩
  obtain ⟨awindow, swindow, hpop, hcounts, horder⟩ := h'.popFront
  refine ⟨{ d with
    stats
    awindow := awindow.insert r.address ((awindow.lookup r.address).getD 0 + 1)
    swindow := swindow ++ [r.address] }, ?_, ⟨horder r.address, hcounts.insert, h.pos⟩, hcounted',
    rfl, rfl⟩
  rw [SpatialLocality.process, hbest, hstats]
  simp only [Option.bind_eq_bind, Option.bind_some, Option.pure_def]
  rw [hpop]

theorem Last.skipAddresses (h : Last d hist) (amount : BitVec 64) :
    ∃ awindow, d.skipAddresses amount = some { d with awindow, swindow := [] } ∧
      Last { d with awindow, swindow := [] } [] := by
  have hlen := h.length_le
  have hlt := d.capacity.isLt
  have hcounts : Counts (flush d.awindow d.swindow) [] :=
    h.counts.flush (Nat.lt_of_le_of_lt hlen hlt)
  have hempty : (flush d.awindow d.swindow).keys.length = 0 := by
    rw [List.length_eq_zero_iff, List.eq_nil_iff_forall_not_mem]
    exact fun a ha => absurd (hcounts.mem_keys.mp ha) List.not_mem_nil
  refine ⟨flush d.awindow d.swindow, ?_, ?_, hcounts, h.pos⟩
  · simp only [SpatialLocality.skipAddresses, Option.bind_eq_bind,
      ReuseDistance.guard_of hempty, Option.bind_some, Option.pure_def]
  · rw [List.take_nil]
    rfl

/-- The addresses are below `2 ^ 63`. -/
def Low (events : List ReuseDistance.Event) : Prop :=
  ∀ r, .process r ∈ events → r.address.toNat < 2 ^ 63

theorem run_spec {events : List ReuseDistance.Event} (h : Last d hist)
    (hcounted : StatsMap.Counted d.newStats d.stats seen) (hhist : ∀ a ∈ hist, a.toNat < 2 ^ 63)
    (hlow : Low events) :
    ∃ d', d.run events = some d' ∧ Last d' (ReuseDistance.history hist events) ∧
      StatsMap.Counted d.newStats d'.stats (seen ++ accesses d.capacity.toNat hist events) ∧
      d'.capacity = d.capacity := by
  induction events generalizing d hist seen with
  | nil =>
    refine ⟨d, rfl, h, ?_, rfl⟩
    rw [accesses, List.append_nil]
    exact hcounted
  | cons event events ih =>
    have hlow' : Low events := fun r hr => hlow r (List.mem_cons_of_mem _ hr)
    cases event with
    | process r =>
      have haddr := hlow r List.mem_cons_self
      obtain ⟨d₁, hprocess, hlast, hcounted₁, hnew, hcapacity⟩ := h.process hcounted r hhist haddr
      rw [← hnew] at hcounted₁
      obtain ⟨d', hrun, hlast', hcounted', hcapacity'⟩ :=
        ih hlast hcounted₁ (List.forall_mem_cons.mpr ⟨haddr, hhist⟩) hlow'
      rw [hcapacity] at hcounted' hcapacity'
      rw [hnew, List.append_assoc] at hcounted'
      refine ⟨d', ?_, hlast', hcounted', hcapacity'⟩
      rw [run, List.foldlM_cons, step, hprocess]
      exact hrun
    | skip amount =>
      obtain ⟨awindow, hskip, hlast⟩ := h.skipAddresses amount
      obtain ⟨d', hrun, hlast', hcounted', hcapacity'⟩ :=
        ih hlast hcounted (fun a ha => absurd ha List.not_mem_nil) hlow'
      refine ⟨d', ?_, hlast', hcounted', hcapacity'⟩
      rw [run, List.foldlM_cons, step, hskip]
      exact hrun

theorem closest_lt (w : List (BitVec 64)) (addr : BitVec 64) : closest w addr < 2 ^ 64 := by
  rw [closest]
  cases hmin : ((w.filter (· ≠ addr)).map (apart · addr)).min? with
  | none => exact invalidSpatial.isLt
  | some n =>
    obtain ⟨a, -, rfl⟩ := List.mem_map.mp (List.min?_eq_some_iff.mp hmin).1
    have ha := a.isLt
    have haddr := addr.isLt
    change apart a addr < 2 ^ 64
    rw [apart]
    omega

theorem lt_of_mem_accesses {capacity : Nat} {events : List ReuseDistance.Event}
    {x : BitVec 64 × Nat} (hx : x ∈ accesses capacity hist events) : x.2 < 2 ^ 64 := by
  induction events generalizing hist with
  | nil => exact absurd hx List.not_mem_nil
  | cons event events ih =>
    cases event with
    | process r =>
      obtain rfl | hx := List.mem_cons.mp hx
      · exact closest_lt _ _
      · exact ih hx
    | skip amount => exact ih hx

/-- A distance that is counted as a miss: there is no other address, or it is above the limit. -/
def missed (max : BitVec 64) (n : Nat) : Bool :=
  n = invalidSpatial.toNat ∨ max ≠ infinityReuse ∧ max.toNat < n

theorem seen_accesses {events : List ReuseDistance.Event} (hd : d.maxtracking = max)
    (hlen : (accesses size.toNat [] events).length < 2 ^ 32)
    (hbin : ∀ x ∈ accesses size.toNat [] events, ¬missed max x.2 →
      d.binindividual = infinityReuse ∨ x.2 ≤ d.binindividual.toNat ∨ x.2 ≤ 2 ^ 30) :
    StatsMap.Seen d.newStats (missed max) (accesses size.toNat [] events) := by
  have htoNat : ∀ x ∈ accesses size.toNat [] events, (BitVec.ofNat 64 x.2).toNat = x.2 :=
    fun x hx => Nat.mod_eq_of_lt (lt_of_mem_accesses hx)
  have htracked : ∀ id, ∀ x ∈ accesses size.toNat [] events,
      (d.newStats id).Tracked (BitVec.ofNat 64 x.2) ↔ ¬missed max x.2 := fun id x hx => by
    have hne : BitVec.ofNat 64 x.2 ≠ invalidSpatial ↔ x.2 ≠ invalidSpatial.toNat := by
      rw [Ne, ← BitVec.toNat_inj, htoNat x hx]
    have hle : max = infinityReuse ∨ BitVec.ofNat 64 x.2 ≤ max ↔
        ¬(max ≠ infinityReuse ∧ max.toNat < x.2) := by
      rw [BitVec.le_def, htoNat x hx, not_and_or, not_not, Nat.not_lt]
    rw [missed, decide_eq_true_eq, not_or, ← hle, ← hd]
    exact and_congr_left fun _ => hne
  refine ⟨fun id => ⟨_, _, _, rfl, .inr rfl⟩, hlen, fun id x hx ht => ?_, htracked⟩
  rw [ReuseStats.Individual, BitVec.le_def, htoNat x hx, or_assoc]
  exact hbin x hx ((htracked id x hx).mp ht)

end Runs

end SpatialLocality

end Pebil
