import Btlib.Cache.Slots
import Btlib.Index.Refine
import Btlib.Theory.Thread

namespace Btlib

open Thread

abbrev QBADIX : Int := 29
abbrev QLRUER : Int := 43

-- The queue as its links: `struct bt_lru`, with `lrunxt` and `busy` of the control data.
structure Lru where
  lruh : Int
  lrut : Int
  lrunxt : Int → Int
  busy : Int → Bool

namespace Lru

variable [Build]

def bqadd (q : Lru) (idx : Int) : Lru :=
  let q := if q.lruh < 0 then { q with lruh := idx }
    else { q with lrunxt := Function.update q.lrunxt q.lrut idx }
  { q with lrut := idx, lrunxt := Function.update q.lrunxt idx (-1) }

def initcntrl (q : Lru) : Lru :=
  (List.range ZMXBLK).foldl
    (fun q (i : Nat) => bqadd { q with busy := Function.update q.busy (i : Int) false } i)
    { q with lrut := -1, lruh := -1 }

-- The loop of `bqmove` that looks for the slot before `idx`; no answer where it does not end.
def slotBefore (q : Lru) (idx : Int) : Nat → Int → Option Int
  | 0, _ => none
  | n + 1, i => if 0 ≤ i then if q.lrunxt i = idx then some i else q.slotBefore idx n (q.lrunxt i) else some i

-- The error `bqmove` reports, and the queue then. Its loop has `n` turns.
def bqmove (n : Nat) (q : Lru) (idx : Int) : Option (Option Int × Lru) :=
  if idx < 0 then some (some QBADIX, q)
  else if idx = q.lrut then some (none, q)
  else
    let place (q : Lru) : Lru :=
      { q with
        lrut := idx
        lrunxt := Function.update (Function.update q.lrunxt q.lrut idx) idx (-1) }
    if idx = q.lruh then some (none, place { q with lruh := q.lrunxt idx })
    else (q.slotBefore idx n q.lruh).map fun i =>
      if 0 ≤ i then (none, place { q with lrunxt := Function.update q.lrunxt i (q.lrunxt idx) })
      else (some QLRUER, place q)

def bqheadLoop (n : Nat) : Nat → Lru → (idx : Int) → Option (Int × Lru)
  | 0, _, _ => none
  | m + 1, q, idx =>
      if 0 ≤ idx then
        if q.busy idx then (q.bqmove n idx).bind fun r => bqheadLoop n m r.2 r.2.lruh
        else some (idx, q)
      else some (idx, q)

def bqhead (n : Nat) (q : Lru) : Option (Int × Lru) := bqheadLoop n n q q.lruh

-- The links from `lruh` run through the slots `l`, and end at `lrut` with -1.
structure Threads (q : Lru) (l : List Int) : Prop where
  way : Way q.lrunxt q.lruh l (-1)
  lrut : q.lrut = l.getLast?.getD (-1)
  nodup : l.Nodup
  nonneg : ∀ i ∈ l, 0 ≤ i

variable {q : Lru} {l : List Int} {i : Int} {n m : Nat}

namespace Threads

omit [Build] in
theorem withBusy (h : q.Threads l) (busy : Int → Bool) : Threads { q with busy := busy } l :=
  ⟨h.way,h.lrut,h.nodup,h.nonneg⟩

omit [Build] in
theorem lruh_neg_iff (h : q.Threads l) : q.lruh < 0 ↔ l = [] := by
  cases l with
  | nil =>
      have : q.lruh = -1 := h.way
      simp [this]
  | cons i l =>
      have := h.nonneg i List.mem_cons_self
      simp only [h.way.1, reduceCtorEq, iff_false]
      omega

omit [Build] in
theorem bqadd (h : q.Threads l) (h0 : 0 ≤ i) (hi : i ∉ l) : (q.bqadd i).Threads (l ++ [i]) := by
  have hnodup : (l ++ [i]).Nodup := List.nodup_append.2 ⟨h.nodup,List.nodup_singleton i,fun a ha b hb => by
    rw [List.mem_singleton.1 hb]
    exact ne_of_mem_of_not_mem ha hi⟩
  have hnonneg : ∀ j ∈ l ++ [i], 0 ≤ j := fun j hj => by
    rcases List.mem_append.1 hj with hj | hj
    · exact h.nonneg j hj
    · rw [List.mem_singleton.1 hj]
      exact h0
  rcases List.eq_nil_or_concat l with rfl | ⟨m,t,rfl⟩
  · have hneg := h.lruh_neg_iff.2 rfl
    simp only [Lru.bqadd, if_pos hneg]
    exact ⟨⟨rfl,Function.update_self ..⟩,rfl,hnodup,hnonneg⟩
  · rw [List.concat_eq_append] at h hi hnodup hnonneg ⊢
    have hneg : ¬ q.lruh < 0 := fun hlt => by simpa using h.lruh_neg_iff.1 hlt
    have hlast : q.lrut = t := by simpa using h.lrut
    have ht : t ∉ m := fun hm => (List.nodup_append.1 h.nodup).2.2 t hm t (List.mem_singleton_self t) rfl
    simp only [Lru.bqadd, if_neg hneg, hlast]
    refine ⟨way_snoc.2 ⟨?_,Function.update_self ..⟩,by simp,hnodup,hnonneg⟩
    exact (h.way.relink ht i).update hi (-1)

omit [Build] in
-- The slot `t` is the last, and `i` none of those that the links run through.
theorem place {next : Int → Int} {lruh t : Int} {busy : Int → Bool} {r : List Int}
    (hway : Way next lruh (r ++ [t]) (-1)) (hnodup : (r ++ [t]).Nodup) (hnonneg : ∀ j ∈ r ++ [t], 0 ≤ j)
    (h0 : 0 ≤ i) (hi : i ∉ r ++ [t]) :
    Threads ⟨lruh,i,Function.update (Function.update next t i) i (-1),busy⟩ (r ++ [t] ++ [i]) := by
  have ht : t ∉ r := fun hm => (List.nodup_append.1 hnodup).2.2 t hm t (List.mem_singleton_self t) rfl
  refine ⟨way_snoc.2 ⟨(hway.relink ht i).update hi (-1),Function.update_self ..⟩,by simp,?_,fun j hj => ?_⟩
  · exact List.nodup_append.2 ⟨hnodup,List.nodup_singleton i,fun a ha b hb => by
      rw [List.mem_singleton.1 hb]
      exact ne_of_mem_of_not_mem ha hi⟩
  · rcases List.mem_append.1 hj with hj | hj
    · exact hnonneg j hj
    · rw [List.mem_singleton.1 hj]
      exact h0

end Threads

omit [Build] in
-- The loop finds the slot before `i`.
theorem slotBefore_eq {p a : Int} {c : List Int} (hway : Way q.lrunxt a (c ++ [p]) i) (hi : i ∉ c ++ [p])
    (hnonneg : ∀ j ∈ c ++ [p], 0 ≤ j) (hn : c.length < n) : q.slotBefore i n a = some p := by
  induction c generalizing a n with
  | nil =>
      obtain ⟨n,rfl⟩ := Nat.exists_eq_succ_of_ne_zero hn.ne'
      obtain ⟨rfl,hnext⟩ := hway
      rw [slotBefore, if_pos (hnonneg a (List.mem_singleton_self a)), if_pos (way_nil.1 hnext)]
  | cons b c ih =>
      obtain ⟨n,rfl⟩ := Nat.exists_eq_succ_of_ne_zero (Nat.ne_of_gt (Nat.lt_of_le_of_lt (Nat.zero_le _) hn))
      rw [List.cons_append] at hway hi hnonneg
      obtain ⟨rfl,hrest⟩ := hway
      have hne : q.lrunxt a ≠ i := by
        intro heq
        cases c with
        | nil => exact hi (List.mem_cons_of_mem _ (by rw [← heq, hrest.1]; exact List.mem_singleton_self p))
        | cons d c => exact hi (List.mem_cons_of_mem _ (by rw [← heq, hrest.1]; exact List.mem_cons_self))
      rw [slotBefore, if_pos (hnonneg a List.mem_cons_self), if_neg hne]
      refine ih hrest (fun hm => hi (List.mem_cons_of_mem _ hm)) (fun j hj => hnonneg j (List.mem_cons_of_mem _ hj)) ?_
      rw [List.length_cons] at hn
      omega

omit [Build] in
-- `bqmove` puts a slot last, and keeps the order of the others.
theorem Threads.bqmove (h : q.Threads l) (hi : i ∈ l) (hn : l.length ≤ n) :
    ∃ q', q.bqmove n i = some (none, q') ∧ q'.Threads (l.erase i ++ [i]) ∧ q'.busy = q.busy := by
  obtain ⟨c,r,rfl⟩ := List.append_of_mem hi
  have h0 := h.nonneg i hi
  have hnodup := List.nodup_middle.1 h.nodup
  have hic : i ∉ c := fun hm => (List.nodup_cons.1 hnodup).1 (List.mem_append_left _ hm)
  have herase : (c ++ i :: r).erase i = c ++ r := by rw [List.erase_append_right _ hic, List.erase_cons_head]
  rw [herase]
  rcases List.eq_nil_or_concat r with rfl | ⟨r,t,rfl⟩
  · have hlast : q.lrut = i := by simpa using h.lrut
    refine ⟨q,?_,by simpa using h,rfl⟩
    rw [Lru.bqmove, if_neg (not_lt.2 h0), if_pos hlast.symm]
  · rw [List.concat_eq_append] at h hnodup hn ⊢
    have hlast : q.lrut = t := by
      rw [h.lrut, ← List.cons_append, ← List.append_assoc, List.getLast?_append]
      rfl
    have hin : i ∉ c ++ (r ++ [t]) := (List.nodup_cons.1 hnodup).1
    have hrest := (List.nodup_cons.1 hnodup).2
    have hnonneg : ∀ j ∈ c ++ (r ++ [t]), 0 ≤ j := fun j hj => h.nonneg j (by
      rcases List.mem_append.1 hj with hj | hj
      · exact List.mem_append_left _ hj
      · exact List.mem_append_right _ (List.mem_cons_of_mem _ hj))
    have hit : i ≠ t := fun heq => hin (by simp [heq])
    obtain ⟨b,hfore,rfl,hback⟩ := way_append.1 h.way
    rw [Lru.bqmove, if_neg (not_lt.2 h0), if_neg (by rwa [hlast])]
    rcases List.eq_nil_or_concat c with rfl | ⟨c,p,rfl⟩
    · rw [if_pos (way_nil.1 hfore).symm]
      refine ⟨_,rfl,?_,rfl⟩
      rw [hlast]
      exact place hback hrest hnonneg h0 hin
    · rw [List.concat_eq_append] at *
      have hhead : b ≠ q.lruh := by
        cases c with
        | nil => exact fun heq => hic (by rw [heq, hfore.1]; exact List.mem_singleton_self p)
        | cons d c => exact fun heq => hic (by rw [heq, hfore.1]; exact List.mem_cons_self)
      have hp0 : 0 ≤ p := hnonneg p (by simp)
      rw [if_neg hhead, slotBefore_eq hfore hic (fun j hj => hnonneg j (List.mem_append_left _ hj)) (by
        simp only [List.length_append, List.length_cons, List.length_nil] at hn
        omega), Option.map_some, if_pos hp0]
      refine ⟨_,rfl,?_,rfl⟩
      have hpc : p ∉ c := fun hm => (List.nodup_append.1 (List.nodup_append.1 hrest).1).2.2 p hm p
        (List.mem_singleton_self p) rfl
      have hpr : p ∉ r ++ [t] := fun hm => (List.nodup_append.1 hrest).2.2 p (by simp) p hm rfl
      rw [← List.append_assoc] at hrest hnonneg hin ⊢
      rw [hlast]
      refine place ?_ hrest hnonneg h0 hin
      rw [List.append_assoc]
      exact way_append.2 ⟨_,hfore.relink hpc _,hback.update hpr _⟩

omit [Build] in
-- `bqhead` puts the busy slots ahead of the first other one last, and answers with that.
theorem Threads.bqheadLoop {g r : List Int} (h : q.Threads (g ++ i :: r)) (hn : (g ++ i :: r).length ≤ n)
    (hbusy : ∀ j ∈ g, q.busy j = true) (hi : q.busy i = false) (hm : g.length < m) :
    ∃ q', Lru.bqheadLoop n m q q.lruh = some (i, q') ∧ q'.Threads (i :: r ++ g) ∧ q'.busy = q.busy := by
  induction g generalizing q r m with
  | nil =>
      obtain ⟨m,rfl⟩ := Nat.exists_eq_succ_of_ne_zero hm.ne'
      have hhead : q.lruh = i := h.way.1
      refine ⟨q,?_,by simpa using h,rfl⟩
      rw [Lru.bqheadLoop, hhead, if_pos (h.nonneg i (by simp)), hi]
      rfl
  | cons j g ih =>
      obtain ⟨m,rfl⟩ := Nat.exists_eq_succ_of_ne_zero (Nat.ne_of_gt (Nat.lt_of_le_of_lt (Nat.zero_le _) hm))
      have hhead : q.lruh = j := h.way.1
      obtain ⟨q1,hmove,hq1,hbusy1⟩ := h.bqmove (i := j) (by simp) hn
      rw [List.cons_append, List.erase_cons_head, List.append_assoc, List.cons_append] at hq1
      obtain ⟨q2,hloop,hq2,hbusy2⟩ := ih hq1 (by simpa [Nat.add_assoc] using hn) (fun x hx => by
        rw [hbusy1]
        exact hbusy x (List.mem_cons_of_mem _ hx)) (by rw [hbusy1, hi]) (Nat.lt_of_succ_lt_succ hm)
      refine ⟨q2,?_,by simpa using hq2,hbusy2.trans hbusy1⟩
      rw [Lru.bqheadLoop, hhead, if_pos (h.nonneg j (by simp)), if_pos (hbusy j List.mem_cons_self), hmove]
      exact hloop

theorem threads_initcntrl (q : Lru) :
    q.initcntrl.Threads ((List.range ZMXBLK).map Nat.cast) ∧ ∀ i < ZMXBLK, q.initcntrl.busy i = false := by
  unfold initcntrl
  generalize ZMXBLK = n
  induction n with
  | zero => exact ⟨⟨rfl,rfl,List.nodup_nil,fun i hi => absurd hi List.not_mem_nil⟩,fun i hi => absurd hi (Nat.not_lt_zero i)⟩
  | succ n ih =>
      rw [List.range_succ, List.foldl_append, List.map_append]
      refine ⟨(ih.1.withBusy _).bqadd (Int.natCast_nonneg n) fun hm => ?_,fun i hi => ?_⟩
      · obtain ⟨j,hj,hjn⟩ := List.mem_map.1 hm
        have := List.mem_range.1 hj
        omega
      · have hbusy : ∀ (q : Lru) (i : Int), (q.bqadd i).busy = q.busy := fun q i => by
          unfold Lru.bqadd
          split <;> rfl
        simp only [List.foldl_cons, List.foldl_nil, hbusy, Function.update_apply]
        split
        · rfl
        · rename_i hne
          refine ih.2 i ?_
          omega

end Lru

-- The queue as it should be: the slots in their order, and which of them are busy.
structure Order where
  slots : List Int
  busy : Int → Bool

-- A call of btque.c, or what is done to the busy flags between two of them.
inductive LruCall where
  | move (idx : Int)
  | head
  | flags (busy : Int → Bool)

namespace LruCall

-- What a call hands back, and the error it reports.
def run (n : Nat) (q : Lru) : LruCall → Option ((Int × Option Int) × Lru)
  | move idx => (q.bqmove n idx).map fun r => ((0, r.1), r.2)
  | head => (q.bqhead n).map fun r => ((r.1, none), r.2)
  | flags busy => some ((0, none), { q with busy := busy })

def spec (o : Order) : LruCall → (Int × Option Int) × Order
  | move idx => ((0, none), { o with slots := o.slots.erase idx ++ [idx] })
  | head =>
      let rest := o.slots.dropWhile o.busy
      ((rest.headD (-1), none), { o with slots := rest ++ o.slots.takeWhile o.busy })
  | flags busy => ((0, none), { o with busy := busy })

-- A slot that is moved is one of the handle's, and one that is asked for can be had.
def Valid [Build] (o : Order) : LruCall → Prop
  | move idx => 0 ≤ idx ∧ idx < ZMXBLK
  | head => ∃ i : Int, 0 ≤ i ∧ i < ZMXBLK ∧ o.busy i = false
  | flags _ => True

def runs (n : Nat) : List LruCall → Lru → Option (List (Int × Option Int) × Lru)
  | [], q => some ([], q)
  | c :: cs, q => (c.run n q).bind fun r => (runs n cs r.2).map fun rs => (r.1 :: rs.1, rs.2)

def specs : List LruCall → Order → List (Int × Option Int) × Order
  | [], o => ([], o)
  | c :: cs, o => ((c.spec o).1 :: (specs cs (c.spec o).2).1, (specs cs (c.spec o).2).2)

def Valids [Build] : List LruCall → Order → Prop
  | [], _ => True
  | c :: cs, o => c.Valid o ∧ Valids cs (c.spec o).2

end LruCall

section Calls

variable [Build] {q : Lru} {o : Order} {n : Nat} {cs : List LruCall}

-- The links are those of the order, and go through every slot once.
structure Lru.Keeps (q : Lru) (o : Order) : Prop where
  threads : q.Threads o.slots
  all : o.slots.Perm ((List.range ZMXBLK).map Nat.cast)
  busy : q.busy = o.busy

theorem mem_slots_iff {l : List Int} (h : l.Perm ((List.range ZMXBLK).map Nat.cast)) (i : Int) :
    i ∈ l ↔ 0 ≤ i ∧ i < ZMXBLK := by
  rw [h.mem_iff, List.mem_map]
  constructor
  · rintro ⟨j,hj,rfl⟩
    have := List.mem_range.1 hj
    omega
  · rintro ⟨h0,hi⟩
    exact ⟨i.toNat,List.mem_range.2 (by omega),by omega⟩

namespace Lru.Keeps

theorem run (h : q.Keeps o) (hn : ZMXBLK < n) (c : LruCall) (hc : c.Valid o) :
    ∃ q', c.run n q = some ((c.spec o).1, q') ∧ q'.Keeps (c.spec o).2 := by
  have hlen : o.slots.length = ZMXBLK := by rw [h.all.length_eq, List.length_map, List.length_range]
  cases c with
  | move i =>
      have hi := (mem_slots_iff h.all i).2 hc
      obtain ⟨q',hmove,hq',hbusy⟩ := h.threads.bqmove hi (n := n) (by omega)
      refine ⟨q',?_,hq',?_,hbusy.trans h.busy⟩
      · simp only [LruCall.run, hmove, Option.map_some, LruCall.spec]
      · exact (List.perm_append_singleton i _).trans ((List.perm_cons_erase hi).symm.trans h.all)
  | head =>
      obtain ⟨i,h0,hi,hidle⟩ := hc
      have hmem := (mem_slots_iff h.all i).2 ⟨h0,hi⟩
      have hsplit := List.takeWhile_append_dropWhile (p := o.busy) (l := o.slots)
      cases hd : o.slots.dropWhile o.busy with
      | nil =>
          have := List.dropWhile_eq_nil_iff.1 hd i hmem
          rw [hidle] at this
          exact absurd this (by decide)
      | cons j r =>
          rw [hd] at hsplit
          have hj : o.busy j = false := by
            have := List.head?_dropWhile_not o.busy o.slots
            rw [hd] at this
            simpa using this
          have hthreads := h.threads
          rw [← hsplit] at hthreads hlen
          obtain ⟨q',hloop,hq',hbusy⟩ := hthreads.bqheadLoop (n := n) (m := n) (by omega) (fun x hx => by
            rw [h.busy]
            exact List.mem_takeWhile_imp hx) (by rw [h.busy, hj]) (by
            rw [List.length_append] at hlen
            omega)
          refine ⟨q',?_,?_,?_,hbusy.trans h.busy⟩
          · simp only [LruCall.run, Lru.bqhead, hloop, Option.map_some, LruCall.spec, hd, List.headD_cons]
          · simpa only [LruCall.spec, hd] using hq'
          · simp only [LruCall.spec, hd]
            refine List.perm_append_comm.trans ?_
            rw [hsplit]
            exact h.all
  | flags busy => exact ⟨_,rfl,h.threads.withBusy busy,h.all,rfl⟩

theorem runs (h : q.Keeps o) (hn : ZMXBLK < n) (hcs : LruCall.Valids cs o) :
    ∃ q', LruCall.runs n cs q = some ((LruCall.specs cs o).1, q') ∧ q'.Keeps (LruCall.specs cs o).2 := by
  induction cs generalizing q o with
  | nil => exact ⟨q,rfl,h⟩
  | cons c cs ih =>
      obtain ⟨q1,hrun,hq1⟩ := h.run hn c hcs.1
      obtain ⟨q2,hruns,hq2⟩ := ih hq1 hcs.2
      refine ⟨q2,?_,hq2⟩
      simp only [LruCall.runs, hrun, Option.bind_some, hruns, Option.map_some, LruCall.specs]

end Lru.Keeps

-- The queue `initcntrl` builds goes through every slot once, and stays so over every sequence of calls: a slot
-- that is moved goes last, and the one asked for is the first that is not busy.
theorem queue_like_order (hn : ZMXBLK < n) (q : Lru) (cs : List LruCall)
    (hcs : LruCall.Valids cs ⟨(List.range ZMXBLK).map Nat.cast,q.initcntrl.busy⟩) :
    ∃ q', LruCall.runs n cs q.initcntrl =
        some ((LruCall.specs cs ⟨(List.range ZMXBLK).map Nat.cast,q.initcntrl.busy⟩).1, q') ∧
      q'.Keeps (LruCall.specs cs ⟨(List.range ZMXBLK).map Nat.cast,q.initcntrl.busy⟩).2 :=
  Lru.Keeps.runs ⟨(Lru.threads_initcntrl q).1,.refl _,rfl⟩ hn hcs

section Cached

variable {k : Cache}

-- The order of the queue of a handle's cache.
def Cache.order (k : Cache) : Order := ⟨k.lru.map Nat.cast,fun i => (k.slot i.toNat).busy⟩

omit [Build] in
theorem order_bqmove (k : Cache) (i : Nat) : (k.bqmove i).order = ((LruCall.move i).spec k.order).2 := by
  have hmap : (k.lru.erase i).map Nat.cast = (k.lru.map (Nat.cast : Nat → Int)).erase (i : Int) :=
    List.map_erase Nat.cast_injective k.lru
  simp only [Cache.order, Cache.bqmove, LruCall.spec, List.map_append, List.map_cons, List.map_nil, hmap]

omit [Build] in
theorem order_bqhead {i : Nat} {k' : Cache} (h : k.bqhead = some (i, k')) :
    LruCall.head.spec k.order = (((i : Int), none), k'.order) := by
  unfold Cache.bqhead at h
  have hdrop : (k.lru.map (Nat.cast : Nat → Int)).dropWhile k.order.busy =
      (k.lru.dropWhile fun i => (k.slot i).busy).map Nat.cast := List.dropWhile_map ..
  have htake : (k.lru.map (Nat.cast : Nat → Int)).takeWhile k.order.busy =
      (k.lru.takeWhile fun i => (k.slot i).busy).map Nat.cast := List.takeWhile_map ..
  simp only [LruCall.spec]
  rw [show k.order.slots = k.lru.map Nat.cast from rfl, hdrop, htake]
  split at h
  · exact absurd h (by simp)
  · rename_i j r hd
    obtain ⟨rfl,rfl⟩ := Prod.mk.inj (Option.some.inj h)
    rw [hd]
    simp [Cache.order]

theorem order_initcntrl (k : Cache) : k.initcntrl.order = ⟨(List.range ZMXBLK).map Nat.cast,fun _ => false⟩ := rfl

end Cached

end Calls

section Run

attribute [local instance] smallBuild

theorem queue_like_order_small :
    ∃ q', LruCall.runs 4 [.head, .flags (· = 0), .head, .move 1, .head]
        (Lru.initcntrl ⟨9,9,fun _ => 0,fun _ => true⟩) =
        some ([(0, none), (0, none), (1, none), (0, none), (2, none)], q') ∧ q'.Threads [2,0,1] := by
  obtain ⟨q',hruns,hkeeps⟩ := queue_like_order (n := 4) (by decide) ⟨9,9,fun _ => 0,fun _ => true⟩
    [.head, .flags (· = 0), .head, .move 1, .head]
    ⟨⟨0,by decide,by decide,by decide⟩,trivial,⟨1,by decide,by decide,by decide⟩,⟨by decide,by decide⟩,
      ⟨2,by decide,by decide,by decide⟩,trivial⟩
  exact ⟨q',hruns,hkeeps.threads⟩

end Run

end Btlib
