import Btlib.Theory.Retrace
import Btlib.Cache.View

namespace Btlib

variable [Build] {k k' : Cache} {B : Finset Int} {last : Option Int} {blk b : Int} {i : Nat} {t : SlotFacts}

namespace Cache

section Slot

theorem Backed.bgtslt (h : Backed k t) (hk : Keeps k B last) (ht : t.counted = true) (hB : B.card < ZMXBLK) :
    ∃ i k', k.bgtslt = some (i, k') ∧ i < ZMXBLK ∧ Alike k k' ∧ Backed k' t ∧ (∀ d, k'.Shows d ↔ k.Shows d) ∧
      (k'.slot i).writes = 0 := by
  obtain ⟨i,k',hs,hi,hb,ha⟩ := hk.bgtslt hB
  refine ⟨i,k',hs,hi,ha,?_⟩
  unfold Cache.bgtslt at hs
  cases hf : k.freeSlot with
  | some j =>
      rw [hf] at hs
      obtain ⟨rfl,rfl⟩ := Prod.mk.inj (Option.some.inj hs)
      exact ⟨h,fun _ => Iff.rfl,h.free j hi (by simpa using List.find?_some hf)⟩
  | none =>
      rw [hf] at hs
      obtain ⟨⟨j,k1⟩,hq,hj⟩ := Option.map_eq_some_iff.1 hs
      obtain ⟨rfl,rfl⟩ := Prod.mk.inj hj
      have hsame : k1.slot = k.slot ∧ k1.file = k.file := by
        unfold Cache.bqhead at hq
        split at hq
        · cases hq
        · obtain ⟨-,rfl⟩ := Prod.mk.inj (Option.some.inj hq)
          exact ⟨rfl,rfl⟩
      have hm : ∀ l, (k1.slot l).inmem = (k.slot l).inmem := fun l => by rw [hsame.1]
      have hmem : ∀ l, (k1.slot l).mem = (k.slot l).mem := fun l => by rw [hsame.1]
      have hfl := alike_flush k1 j
      have hk1 : Keeps k1 B last := hk.alike
        ⟨hfl.lru.symm.trans ha.lru,hm,fun l => by rw [hsame.1],hfl.labelled.symm.trans ha.labelled⟩
      have h1 : Backed k1 t := h.congr hm hmem (fun l => by rw [hsame.1]) hsame.2
      have hs1 : ∀ d, k1.Shows d ↔ k.Shows d := fun d => shows_congr (by rw [hsame.2]) fun blk _ _ =>
        view_congr hm hmem fun _ => by rw [hsame.2]
      refine ⟨h1.flush hk1 ht hi,fun d => (h1.shows_flush hk1 hi).trans (hs1 d),?_⟩
      rw [(flush_slot k1 j j).2.2, if_pos rfl]

end Slot

section Read

omit [Build] in
theorem slot_setSlot (k : Cache) (i j : Nat) (f : Slot → Slot) :
    (k.setSlot i f).slot j = if j = i then f (k.slot i) else k.slot j := by
  split
  · rename_i hj
    rw [hj, slot_setSlot_self]
  · rename_i hj
    exact slot_setSlot_of_ne hj

theorem Shows.read {d : Disk} (hd : k.Shows d) (h0 : 0 ≤ blk) (hlt : blk < k.file.size) :
    d.read blk = some (k.view blk) := by
  rw [Disk.read, if_pos ⟨h0,hd.size ▸ hlt⟩, hd.block blk h0 hlt]

theorem shows_bqmove {d : Disk} : (k.bqmove i).Shows d ↔ k.Shows d := shows_congr rfl fun _ _ _ => rfl

theorem Backed.hand_of (h : Backed k t) (ht : t.counted = true ∨ t.last = some blk) (h0 : 0 ≤ blk) (hi : i < ZMXBLK)
    (hm : (k.slot i).inmem = blk) : Backed k { t with last := some blk } := by
  refine ⟨h.size,h.nonneg,h.below,h.writes,h.free,fun j hj hj0 hw hc => h.clean j hj hj0 hw ?_,fun b hb => ?_,h.dirty⟩
  · exact ht.elim Or.inl fun ht => ht ▸ hc
  · cases hb
    exact ⟨h0,i,hi,hm⟩

theorem Backed.drop (h : Backed k t) (ht : t.counted = true) : Backed k { t with last := none } :=
  ⟨h.size,h.nonneg,h.below,h.writes,h.free,fun j hj hj0 hw _ => h.clean j hj hj0 hw (Or.inl ht),
    fun _ hb => (by cases hb),h.dirty⟩

theorem Backed.hit (h : Backed k t) (hk : Keeps k B last) (ht : t.counted = true ∨ t.last = some blk) (h0 : 0 ≤ blk)
    (hi : i < ZMXBLK) (hm : (k.slot i).inmem = blk) :
    Backed (k.bqmove i) { t with last := some blk } ∧
      ∀ d, (k.bqmove i).Shows d → k.Shows d ∧ d.read blk = some (k.slot i).mem := by
  have h' : Backed (k.bqmove i) t := h.congr (fun _ => rfl) (fun _ => rfl) (fun _ => rfl) rfl
  refine ⟨h'.hand_of ht h0 hi hm,fun d hd => ?_⟩
  have hd : k.Shows d := shows_bqmove.1 hd
  refine ⟨hd,?_⟩
  rw [hd.read h0 (hm ▸ h.below i hi), ← hm, hk.view_slot hi (hm ▸ h0)]

theorem Backed.load (h : Backed k t) (hk : Keeps k B last) (ht : t.counted = true) (hi : i < ZMXBLK)
    (hw : (k.slot i).writes = 0) (h0 : 0 ≤ blk) (hlt : blk < k.file.size) (hno : ∀ j < ZMXBLK, (k.slot j).inmem ≠ blk) :
    Backed (k.setSlot i fun s => { s with inmem := blk, mem := k.file.block blk }) { t with last := some blk } ∧
      ∀ d, (k.setSlot i fun s => { s with inmem := blk, mem := k.file.block blk }).Shows d ↔ k.Shows d := by
  refine ⟨⟨h.size,h.nonneg,fun j hj => ?_,fun j hj => ?_,fun j hj hneg => ?_,fun j hj hj0 hwj _ => ?_,fun b hb => ?_,
    fun D hD j hj hj0 hwj => ?_⟩,fun d => ?_⟩
  · rw [slot_setSlot]
    split
    · exact hlt
    · exact h.below j hj
  · rw [slot_setSlot]
    split
    · exact h.writes i hi
    · exact h.writes j hj
  · rw [slot_setSlot] at hneg ⊢
    split
    · exact hw
    · rename_i hji
      rw [if_neg hji] at hneg
      exact h.free j hj hneg
  · rw [slot_setSlot] at hj0 hwj ⊢
    by_cases hji : j = i
    · rw [if_pos hji]
      rfl
    · rw [if_neg hji] at hj0 hwj ⊢
      exact h.clean j hj hj0 hwj (Or.inl ht)
  · cases hb
    exact ⟨h0,i,hi,by rw [slot_setSlot_self]⟩
  · rw [slot_setSlot] at hj0 hwj ⊢
    by_cases hji : j = i
    · rw [if_pos hji] at hwj
      exact absurd hw hwj
    · rw [if_neg hji] at hj0 hwj ⊢
      exact h.dirty D hD j hj hj0 hwj
  · refine shows_congr rfl fun b hb0 _ => ?_
    rw [hk.view_setSlot hi rfl (fun j hj _ => hno j hj) (Or.inr (h.spent ht hi hw)) hb0]
    split
    · rename_i heq
      rw [heq, view_of_absent hno]
    · rfl

theorem Backed.brdblk (h : Backed k t) (hk : Keeps k B last) (ht : t.counted = true ∨ t.last = some blk)
    (hok : blk ∈ B ∨ B.card < ZMXBLK) (hz : ∀ i < ZMXBLK, (k.slot i).inmem = blk → 0 ≤ blk) {r : Option Block}
    (hr : k.brdblk blk = some (r, k')) :
    (blk ∈ B ∨ t.last = some blk → r ≠ none) ∧ Backed k' { t with last := if r = none then none else some blk } ∧
      ∀ d, k'.Shows d → k.Shows d ∧ d.read blk = r := by
  unfold Cache.brdblk at hr
  cases hf : k.findSlot blk with
  | some i =>
      rw [hf] at hr
      obtain ⟨rfl,rfl⟩ := Prod.mk.inj (Option.some.inj hr)
      obtain ⟨hi,hm⟩ := findSlot_some hf
      rw [if_neg (by simp)]
      exact ⟨fun _ => by simp,h.hit hk ht (hz i hi hm) hi hm⟩
  | none =>
      have hno : ∀ i < ZMXBLK, (k.slot i).inmem ≠ blk := fun i hi => findSlot_none hf hi
      have hnB : blk ∉ B := fun hB => by
        obtain ⟨i,hi,hm,-⟩ := hk.found blk hB
        exact hno i hi hm
      have hnl : t.last ≠ some blk := fun hl => by
        obtain ⟨-,i,hi,hm⟩ := h.hand blk hl
        exact hno i hi hm
      have ht := ht.resolve_right hnl
      obtain ⟨i,k1,hs,hi,ha,h1,hs1,hw⟩ := h.bgtslt hk ht (hok.resolve_left hnB)
      have hno1 : ∀ j < ZMXBLK, (k1.slot j).inmem ≠ blk := fun j hj => ha.inmem j ▸ hno j hj
      refine ⟨fun hin => absurd hin (not_or.2 ⟨hnB,hnl⟩),?_⟩
      rw [hf, hs] at hr
      simp only [Option.map_some, Option.some.injEq, Disk.read] at hr
      by_cases hin : 0 ≤ blk ∧ blk < k1.file.size
      · rw [if_pos hin] at hr
        obtain ⟨rfl,rfl⟩ := Prod.mk.inj hr
        obtain ⟨h2,hs2⟩ := h1.load (hk.alike ha) ht hi hw hin.1 hin.2 hno1
        rw [if_neg (by simp)]
        refine ⟨h2.congr (fun _ => rfl) (fun _ => rfl) (fun _ => rfl) rfl,fun d hd => ?_⟩
        have hd : k1.Shows d := (hs2 d).1 (shows_bqmove.1 hd)
        exact ⟨(hs1 d).1 hd,(hd.read hin.1 hin.2).trans (by rw [view_of_absent hno1])⟩
      · rw [if_neg hin] at hr
        obtain ⟨rfl,rfl⟩ := Prod.mk.inj hr
        refine ⟨h1.drop ht,fun d hd => ⟨(hs1 d).1 hd,?_⟩⟩
        rw [Disk.read, hd.size, if_neg hin]

end Read

section Write

theorem Backed.wr (h : Backed k t) (hk : Keeps k B last) (hl : t.last = some blk) (c : Block) {n : Int} (hn : 0 ≤ n) :
    Backed (k.onSlot blk fun i => k.setSlot i fun s => { s with mem := c, writes := s.writes + n })
        { t with counted := decide (0 < n), dirty := t.dirty.map (insert blk) } ∧
      ∀ d', (k.onSlot blk fun i => k.setSlot i fun s => { s with mem := c, writes := s.writes + n }).Shows d' →
        ∃ d, k.Shows d ∧ d.put blk c = d' := by
  obtain ⟨h0,i,hi,hm⟩ := h.hand blk hl
  have hin : ∀ j < ZMXBLK, (k.slot j).inmem = blk → j = i := fun j hj hjm =>
    hk.inj j hj i hi (hjm.trans hm.symm) (hjm ▸ h0)
  have hfs : k.findSlot blk = some i := hm ▸ hk.findSlot hi (hm ▸ h0)
  simp only [Cache.onSlot, hfs]
  refine ⟨⟨h.size,h.nonneg,fun j hj => ?_,fun j hj => ?_,fun j hj hneg => ?_,fun j hj hj0 hw hc => ?_,fun b hb => ?_,
    fun D hD j hj hj0 hw => ?_⟩,fun d' hd' => ?_⟩
  · rw [slot_setSlot]
    split
    · exact h.below i hi
    · exact h.below j hj
  · rw [slot_setSlot]
    split
    · exact Int.add_nonneg (h.writes i hi) hn
    · exact h.writes j hj
  · rw [slot_setSlot] at hneg ⊢
    by_cases hji : j = i
    · rw [if_pos hji] at hneg
      exact absurd hneg (not_lt.2 (hm ▸ h0))
    · rw [if_neg hji] at hneg ⊢
      exact h.free j hj hneg
  · rw [slot_setSlot] at hj0 hw hc ⊢
    by_cases hji : j = i
    · rw [if_pos hji] at hw hc
      have hwi := h.writes i hi
      have hz : ¬ 0 < n := by
        dsimp only at hw
        omega
      rcases hc with hc | hc
      · exact absurd (of_decide_eq_true hc) hz
      · exact absurd (hl.trans (congrArg some hm.symm)) hc
    · rw [if_neg hji] at hj0 hw hc ⊢
      refine h.clean j hj hj0 hw (Or.inr fun hlj => hji (hin j hj ?_))
      exact (Option.some.inj (hl.symm.trans hlj)).symm
  · obtain ⟨hb0,j,hj,hjm⟩ := h.hand b hb
    refine ⟨hb0,j,hj,?_⟩
    rw [slot_setSlot]
    split
    · rename_i hji
      exact hji ▸ hjm
    · exact hjm
  · obtain ⟨D0,hD0,rfl⟩ := Option.map_eq_some_iff.1 hD
    rw [slot_setSlot] at hj0 hw ⊢
    by_cases hji : j = i
    · rw [if_pos hji]
      exact Finset.mem_insert.2 (Or.inl hm)
    · rw [if_neg hji] at hj0 hw ⊢
      exact Finset.mem_insert_of_mem (h.dirty D0 hD0 j hj hj0 hw)
  · have hview : ∀ b, 0 ≤ b → (k.setSlot i fun s => { s with mem := c, writes := s.writes + n }).view b =
        if b = blk then c else k.view b := fun b hb =>
      hk.view_setSlot hi hm (fun j hj hji hjm => hji (hin j hj hjm)) (Or.inl hm) hb
    refine ⟨d'.put blk (k.view blk),⟨hd'.size,fun b hb0 hlt => ?_⟩,?_⟩
    · by_cases hb : b = blk
      · rw [hb]
        exact Function.update_self ..
      · refine (Function.update_of_ne hb ..).trans ((hd'.block b hb0 hlt).trans ?_)
        rw [hview b hb0, if_neg hb]
    · have hval : d'.block blk = c := by
        rw [hd'.block blk h0 (hm ▸ h.below i hi), hview blk h0, if_pos rfl]
      simp only [Disk.put, Function.update_idem, ← hval, Function.update_eq_self]

theorem Backed.grow (h : Backed k t) (hk : Keeps k B last) (ht : t.counted = true) (hi : i < ZMXBLK)
    (hwi : (k.slot i).writes = 0) (hblk : blk = t.size) :
    Backed ((k.setSlot i fun s => { s with inmem := blk, writes := 1 }).flush i)
        { t with last := none, size := blk + 1 } ∧
      ∀ d', ((k.setSlot i fun s => { s with inmem := blk, writes := 1 }).flush i).Shows d' →
        ∃ d, k.Shows d ∧ d.grow blk = d' := by
  have hend : blk = k.file.size := hblk.trans h.size
  have hno : ∀ j < ZMXBLK, (k.slot j).inmem ≠ blk := fun j hj hjm => by
    have := h.below j hj
    omega
  have h0 : 0 ≤ blk := hend ▸ h.nonneg
  set f : Slot → Slot := fun s => { s with inmem := blk, writes := 1 } with hf
  have hslot := fun j => flush_slot (k.setSlot i f) i j
  have hfile : ((k.setSlot i f).flush i).file = (k.file.grow blk).put blk (k.slot i).mem := by
    have hw : ((k.setSlot i f).slot i).writes ≠ 0 := by
      rw [slot_setSlot_self]
      exact one_ne_zero
    rw [Cache.flush, if_pos hw, slot_setSlot_self]
    rfl
  have hsize : ((k.setSlot i f).flush i).file.size = blk + 1 := by
    rw [hfile]
    simp only [Disk.put, Disk.grow]
    omega
  refine ⟨⟨hsize.symm,by omega,fun j hj => ?_,fun j hj => ?_,fun j hj hneg => ?_,fun j hj hj0 hw _ => ?_,
    fun b hb => (by cases hb),fun D hD j hj hj0 hw => ?_⟩,fun d' hd' => ?_⟩
  · rw [hsize, (hslot j).1, slot_setSlot]
    split
    · exact Int.lt_succ blk
    · have := h.below j hj
      omega
  · rw [(hslot j).2.2, slot_setSlot]
    split
    · exact le_rfl
    · exact h.writes j hj
  · rw [(hslot j).1, slot_setSlot] at hneg
    rw [(hslot j).2.2, slot_setSlot]
    by_cases hji : j = i
    · rw [if_pos hji]
    · rw [if_neg hji] at hneg
      rw [if_neg hji, if_neg hji]
      exact h.free j hj hneg
  · rw [(hslot j).1] at hj0 ⊢
    rw [(hslot j).2.1, hfile]
    rw [(hslot j).2.2] at hw
    rw [slot_setSlot] at hj0 hw ⊢
    by_cases hji : j = i
    · rw [if_pos hji, hf]
      simp [Disk.put]
    · simp only [if_neg hji] at hj0 hw ⊢
      rw [h.clean j hj hj0 hw (Or.inl ht)]
      exact (Function.update_of_ne (hno j hj) ..).symm
  · rw [(hslot j).2.2, slot_setSlot] at hw
    rw [(hslot j).1, slot_setSlot] at hj0 ⊢
    by_cases hji : j = i
    · rw [if_pos hji] at hw
      exact absurd rfl hw
    · simp only [if_neg hji] at hj0 hw ⊢
      exact h.dirty D hD j hj hj0 hw
  · refine ⟨{ d' with size := k.file.size },⟨rfl,fun b hb0 hlt => ?_⟩,?_⟩
    · have hne : b ≠ blk := by omega
      refine (hd'.block b hb0 (by rw [hsize]; omega)).trans ?_
      rw [view_flush hi, hk.view_setSlot hi rfl (fun j hj _ => hno j hj) (Or.inr (h.spent ht hi hwi)) hb0,
        if_neg hne]
    · have hsz := hd'.size.trans hsize
      obtain ⟨c,m⟩ := d'
      simp only at hsz
      subst hsz
      simp only [Disk.grow, Disk.mk.injEq, true_and]
      omega

end Write

section Flush

theorem Backed.onSlot_flush (h : Backed k t) (hk : Keeps k B last) (ht : t.counted = true) (blk : Int) :
    Backed (k.onSlot blk k.flush) t ∧ ∀ d, (k.onSlot blk k.flush).Shows d ↔ k.Shows d := by
  unfold onSlot
  split
  · rename_i i hf
    have hi := (findSlot_some hf).1
    exact ⟨h.flush hk ht hi,fun _ => h.shows_flush hk hi⟩
  · exact ⟨h,fun _ => Iff.rfl⟩

theorem Backed.wrblk (h : Backed k t) (hk : Keeps k B last) (ht : t.counted = true) (blk : Int) :
    Backed (k.onSlot blk k.flush) { t with dirty := t.dirty.map fun D => D.erase blk } := by
  have h' := (h.onSlot_flush hk ht blk).1
  refine ⟨h'.size,h'.nonneg,h'.below,h'.writes,h'.free,h'.clean,h'.hand,fun D hD j hj h0 hw => ?_⟩
  obtain ⟨D0,hD0,rfl⟩ := Option.map_eq_some_iff.1 hD
  refine Finset.mem_erase.2 ⟨fun hm => ?_,h'.dirty D0 hD0 j hj h0 hw⟩
  cases hf : k.findSlot blk with
  | none =>
      simp only [onSlot, hf] at hm
      exact findSlot_none hf hj hm
  | some i =>
      obtain ⟨hi,hmi⟩ := findSlot_some hf
      simp only [onSlot, hf, (flush_slot k i j).1, (flush_slot k i j).2.2] at hm hw h0
      refine hw (if_pos ?_)
      exact hk.inj j hj i hi (hm.trans hmi.symm) h0

theorem Backed.wrall (h : Backed k t) (hk : Keeps k B last) (ht : t.counted = true) :
    Backed ((List.range ZMXBLK).foldl Cache.flush k) { t with dirty := some ∅ } ∧
      ∀ d, ((List.range ZMXBLK).foldl Cache.flush k).Shows d ↔ k.Shows d := by
  obtain ⟨h',hs⟩ := h.flushes hk ht (List.range ZMXBLK) fun i hi => List.mem_range.1 hi
  refine ⟨⟨h'.size,h'.nonneg,h'.below,h'.writes,h'.free,h'.clean,h'.hand,fun D _ j hj _ hw => ?_⟩,hs⟩
  rw [flushes_writes, if_pos (List.mem_range.2 hj)] at hw
  exact absurd rfl hw

theorem Backed.shows_file (h : Backed k t) (ht : t.counted = true) (hd : t.dirty = some ∅) : k.Shows k.file := by
  refine ⟨rfl,fun blk h0 _ => ?_⟩
  rw [view]
  cases hf : k.findSlot blk with
  | none => rfl
  | some i =>
      obtain ⟨hi,hm⟩ := findSlot_some hf
      have hw : (k.slot i).writes = 0 := by
        by_contra hw
        exact absurd (h.dirty ∅ hd i hi (hm ▸ h0) hw) (Finset.notMem_empty _)
      rw [← hm]
      exact (h.clean i hi (hm ▸ h0) hw (Or.inl ht)).symm

theorem Shows.file_congr {d : Disk} (h : k.Shows k.file) (hf : k'.file = k.file) (hv : ∀ blk, 0 ≤ blk → k'.view blk = k'.file.block blk) :
    k'.Shows d ↔ k.Shows d :=
  shows_congr (by rw [hf]) fun blk h0 hlt => by rw [hv blk h0, hf, h.block blk h0 hlt]

theorem Backed.initcntrl (h : Backed k t) (ht : t.counted = true) (hd : t.dirty = some ∅) :
    Backed k.initcntrl { t with busy := ∅, last := none } ∧ ∀ d, k.initcntrl.Shows d ↔ k.Shows d := by
  have hneg : ∀ i, (k.initcntrl.slot i).inmem < 0 := fun _ => (by decide : ZNULL < 0)
  refine ⟨⟨h.size,h.nonneg,fun i _ => (hneg i).trans_le h.nonneg,fun _ _ => le_rfl,fun _ _ _ => rfl,
    fun i _ h0 => absurd (hneg i) (not_lt.2 h0),fun _ hb => (by cases hb),
    fun D _ i _ h0 => absurd (hneg i) (not_lt.2 h0)⟩,fun d => ?_⟩
  refine (h.shows_file ht hd).file_congr rfl fun blk h0 => view_of_absent fun i _ hm => ?_
  exact absurd (hneg i) (not_lt.2 (hm ▸ h0))

end Flush

end Cache

end Btlib
