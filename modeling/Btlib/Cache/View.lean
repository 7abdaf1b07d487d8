import Btlib.Cache.Slots
import Btlib.Cache.SlotFacts

namespace Btlib

variable [Build] {k k' : Cache} {B : Finset Int} {last : Option Int} {blk b : Int} {i : Nat} {f : Slot → Slot}

namespace Cache

section View

-- What a block holds: in its slot, or in the file.
def view (k : Cache) (blk : Int) : Block :=
  match k.findSlot blk with
  | some i => (k.slot i).mem
  | none => k.file.block blk

-- The file as it would be with the slots written out.
structure Shows (k : Cache) (d : Disk) : Prop where
  size : d.size = k.file.size
  block : ∀ blk, 0 ≤ blk → blk < k.file.size → d.block blk = k.view blk

theorem shows_view (k : Cache) : k.Shows ⟨k.view,k.file.size⟩ := ⟨rfl,fun _ _ _ => rfl⟩

theorem Keeps.findSlot (h : Keeps k B last) (hi : i < ZMXBLK) (h0 : 0 ≤ (k.slot i).inmem) :
    k.findSlot (k.slot i).inmem = some i := by
  cases hf : k.findSlot (k.slot i).inmem with
  | none => exact absurd rfl (findSlot_none hf hi)
  | some j =>
      obtain ⟨hj,hm⟩ := findSlot_some hf
      rw [h.inj j hj i hi hm (hm ▸ h0)]

theorem Keeps.view_slot (h : Keeps k B last) (hi : i < ZMXBLK) (h0 : 0 ≤ (k.slot i).inmem) :
    k.view (k.slot i).inmem = (k.slot i).mem := by
  rw [view, h.findSlot hi h0]

theorem view_of_absent (h : ∀ i < ZMXBLK, (k.slot i).inmem ≠ blk) : k.view blk = k.file.block blk := by
  rw [view]
  cases hf : k.findSlot blk with
  | none => rfl
  | some j =>
      obtain ⟨hj,hm⟩ := findSlot_some hf
      exact absurd hm (h j hj)

theorem findSlot_congr (h : ∀ i, (k'.slot i).inmem = (k.slot i).inmem) : k'.findSlot blk = k.findSlot blk := by
  simp only [findSlot, h]

theorem view_congr (hm : ∀ i, (k'.slot i).inmem = (k.slot i).inmem) (hmem : ∀ i, (k'.slot i).mem = (k.slot i).mem)
    (hf : (∀ i < ZMXBLK, (k.slot i).inmem ≠ blk) → k'.file.block blk = k.file.block blk) : k'.view blk = k.view blk := by
  rw [view, view, findSlot_congr hm]
  cases hs : k.findSlot blk with
  | none => exact hf fun i hi => findSlot_none hs hi
  | some i => exact hmem i

omit [Build] in
@[simp] theorem slot_setSlot_self (k : Cache) (i : Nat) (f : Slot → Slot) : (k.setSlot i f).slot i = f (k.slot i) :=
  Function.update_self ..

omit [Build] in
theorem slot_setSlot_of_ne {j : Nat} (h : j ≠ i) : (k.setSlot i f).slot j = k.slot j :=
  Function.update_of_ne h ..

-- A slot that is given to `blk`: the block that was in it is in the file as it was.
theorem Keeps.view_setSlot (h : Keeps k B last) (hi : i < ZMXBLK) (hblk : (f (k.slot i)).inmem = blk)
    (hno : ∀ j < ZMXBLK, j ≠ i → (k.slot j).inmem ≠ blk)
    (hold : (k.slot i).inmem = blk ∨ (k.slot i).inmem < 0 ∨ (k.slot i).mem = k.file.block (k.slot i).inmem)
    (hb : 0 ≤ b) :
    (k.setSlot i f).view b = if b = blk then (f (k.slot i)).mem else k.view b := by
  have hself : ((k.setSlot i f).slot i).inmem = blk := by rw [slot_setSlot_self, hblk]
  split
  · rename_i heq
    subst heq
    cases hf : (k.setSlot i f).findSlot b with
    | none => exact absurd hself (findSlot_none hf hi)
    | some j =>
        obtain ⟨hj,hm⟩ := findSlot_some hf
        have hji : j = i := by
          by_contra hji
          rw [slot_setSlot_of_ne hji] at hm
          exact hno j hj hji hm
        rw [view, hf, hji]
        exact congrArg Slot.mem (slot_setSlot_self k i f)
  · rename_i hne
    by_cases hin : ∃ j < ZMXBLK, j ≠ i ∧ (k.slot j).inmem = b
    · obtain ⟨j,hj,hji,rfl⟩ := hin
      rw [h.view_slot hj hb, view]
      cases hf : (k.setSlot i f).findSlot (k.slot j).inmem with
      | none => exact absurd (by rw [slot_setSlot_of_ne hji]) (findSlot_none hf hj)
      | some l =>
          obtain ⟨hl,hm⟩ := findSlot_some hf
          have hli : l ≠ i := fun hli => hne (by rw [← hm, hli, hself])
          rw [slot_setSlot_of_ne hli] at hm
          dsimp only
          rw [slot_setSlot_of_ne hli, h.inj l hl j hj hm (hm ▸ hb)]
    · have hother : ∀ j < ZMXBLK, ((k.setSlot i f).slot j).inmem ≠ b := by
        intro j hj hm
        by_cases hji : j = i
        · rw [hji, hself] at hm
          exact hne hm.symm
        · rw [slot_setSlot_of_ne hji] at hm
          exact hin ⟨j,hj,hji,hm⟩
      rw [view_of_absent hother]
      change k.file.block b = k.view b
      by_cases him : (k.slot i).inmem = b
      · rw [← him, h.view_slot hi (him ▸ hb)]
        rcases hold with hold | hold | hold
        · exact absurd (him.symm.trans hold) hne
        · omega
        · exact hold.symm
      · refine (view_of_absent fun j hj hm => ?_).symm
        by_cases hji : j = i
        · exact him (hji ▸ hm)
        · exact hin ⟨j,hj,hji,hm⟩

end View

section Backed

-- The slots hold blocks of the file, and what is not in the file yet is counted as changed.
structure Backed (k : Cache) (t : SlotFacts) : Prop where
  size : t.size = k.file.size
  nonneg : 0 ≤ k.file.size
  below : ∀ i < ZMXBLK, (k.slot i).inmem < k.file.size
  writes : ∀ i < ZMXBLK, 0 ≤ (k.slot i).writes
  free : ∀ i < ZMXBLK, (k.slot i).inmem < 0 → (k.slot i).writes = 0
  clean : ∀ i < ZMXBLK, 0 ≤ (k.slot i).inmem → (k.slot i).writes = 0 →
    (t.counted = true ∨ t.last ≠ some (k.slot i).inmem) → (k.slot i).mem = k.file.block (k.slot i).inmem
  hand : ∀ blk, t.last = some blk → 0 ≤ blk ∧ ∃ i < ZMXBLK, (k.slot i).inmem = blk
  dirty : ∀ D, t.dirty = some D → ∀ i < ZMXBLK, 0 ≤ (k.slot i).inmem → (k.slot i).writes ≠ 0 → (k.slot i).inmem ∈ D

variable {t : SlotFacts}

-- A slot that is written out may be given to another block.
theorem Backed.spent (h : Backed k t) (ht : t.counted = true) (hi : i < ZMXBLK) (hw : (k.slot i).writes = 0) :
    (k.slot i).inmem < 0 ∨ (k.slot i).mem = k.file.block (k.slot i).inmem :=
  (lt_or_ge (k.slot i).inmem 0).imp_right fun h0 => h.clean i hi h0 hw (Or.inl ht)

theorem Backed.congr (h : Backed k t) (hm : ∀ i, (k'.slot i).inmem = (k.slot i).inmem)
    (hmem : ∀ i, (k'.slot i).mem = (k.slot i).mem) (hw : ∀ i, (k'.slot i).writes = (k.slot i).writes)
    (hf : k'.file = k.file) : Backed k' t := by
  refine ⟨hf ▸ h.size,hf ▸ h.nonneg,fun i hi => ?_,fun i hi => ?_,fun i hi => ?_,fun i hi => ?_,fun blk hl => ?_,
    fun D hD i hi => ?_⟩
  · rw [hm, hf]
    exact h.below i hi
  · rw [hw]
    exact h.writes i hi
  · rw [hm, hw]
    exact h.free i hi
  · rw [hm, hmem, hw, hf]
    exact h.clean i hi
  · simp only [hm]
    exact h.hand blk hl
  · rw [hm, hw]
    exact h.dirty D hD i hi

theorem shows_congr {d : Disk} (hsize : k'.file.size = k.file.size)
    (hv : ∀ blk, 0 ≤ blk → blk < k.file.size → k'.view blk = k.view blk) : k'.Shows d ↔ k.Shows d :=
  ⟨fun h => ⟨h.size.trans hsize,fun blk h0 hlt => (h.block blk h0 (hsize ▸ hlt)).trans (hv blk h0 hlt)⟩,
    fun h => ⟨h.size.trans hsize.symm,fun blk h0 hlt =>
      (h.block blk h0 (hsize ▸ hlt)).trans (hv blk h0 (hsize ▸ hlt)).symm⟩⟩

omit [Build] in
theorem flush_slot (k : Cache) (i j : Nat) :
    ((k.flush i).slot j).inmem = (k.slot j).inmem ∧ ((k.flush i).slot j).mem = (k.slot j).mem ∧
      ((k.flush i).slot j).writes = if j = i then 0 else (k.slot j).writes := by
  unfold flush
  by_cases hw : (k.slot i).writes = 0
  · rw [if_neg (not_not.2 hw)]
    refine ⟨rfl,rfl,?_⟩
    split
    · rename_i h
      rw [h, hw]
    · rfl
  · rw [if_pos hw]
    by_cases hj : j = i
    · subst hj
      simp
    · simp only [slot_setSlot_of_ne hj, if_neg hj, and_self]

theorem Backed.flush_size (h : Backed k t) (hk : Keeps k B last) (hi : i < ZMXBLK) : (k.flush i).file.size = k.file.size := by
  have h1 := h.below i hi
  have h2 := hk.label i hi
  have h3 := h.nonneg
  unfold flush
  split
  · simp only [Disk.put, Disk.grow]
    omega
  · rfl

omit [Build] in
theorem flush_block (k : Cache) (i : Nat) (b : Int) : (k.flush i).file.block b =
    if b = (k.slot i).inmem ∧ (k.slot i).writes ≠ 0 then (k.slot i).mem else k.file.block b := by
  unfold flush
  by_cases hw : (k.slot i).writes = 0
  · rw [if_neg (not_not.2 hw), if_neg fun h => h.2 hw]
  · rw [if_pos hw]
    by_cases hb : b = (k.slot i).inmem
    · subst hb
      simp [Disk.put, hw]
    · simp [Disk.put, Disk.grow, hb]

theorem Backed.flush (h : Backed k t) (hk : Keeps k B last) (ht : t.counted = true) (hi : i < ZMXBLK) :
    Backed (k.flush i) t := by
  have hsize := h.flush_size hk hi
  refine ⟨hsize ▸ h.size,hsize ▸ h.nonneg,fun j hj => ?_,fun j hj => ?_,fun j hj hneg => ?_,fun j hj h0 hw _ => ?_,
    fun blk hl => ?_,fun D hD j hj h0 hw => ?_⟩
  · rw [hsize, (flush_slot k i j).1]
    exact h.below j hj
  · rw [(flush_slot k i j).2.2]
    split
    · exact le_rfl
    · exact h.writes j hj
  · rw [(flush_slot k i j).1] at hneg
    rw [(flush_slot k i j).2.2, h.free j hj hneg, ite_self]
  · obtain ⟨hm,hmem,hwr⟩ := flush_slot k i j
    rw [hm] at h0
    rw [hwr] at hw
    rw [hm, hmem, flush_block]
    split
    · rename_i hc
      rw [hk.inj j hj i hi hc.1 h0]
    · rename_i hc
      refine h.clean j hj h0 ?_ (Or.inl ht)
      by_cases hji : j = i
      · subst hji
        simpa using hc
      · rwa [if_neg hji] at hw
  · obtain ⟨h0,j,hj,hm⟩ := h.hand blk hl
    exact ⟨h0,j,hj,(flush_slot k i j).1.trans hm⟩
  · obtain ⟨hm,-,hwr⟩ := flush_slot k i j
    rw [hm] at h0 ⊢
    rw [hwr] at hw
    split at hw
    · exact absurd rfl hw
    · exact h.dirty D hD j hj h0 hw

theorem view_flush (hi : i < ZMXBLK) (blk : Int) : (k.flush i).view blk = k.view blk :=
  view_congr (fun j => (flush_slot k i j).1) (fun j => (flush_slot k i j).2.1) fun hno => by
    rw [flush_block, if_neg fun hc => hno i hi hc.1.symm]

theorem Backed.shows_flush (h : Backed k t) (hk : Keeps k B last) (hi : i < ZMXBLK) {d : Disk} :
    (k.flush i).Shows d ↔ k.Shows d :=
  shows_congr (h.flush_size hk hi) fun blk _ _ => view_flush hi blk

theorem Backed.flushes (h : Backed k t) (hk : Keeps k B last) (ht : t.counted = true) (is : List Nat)
    (his : ∀ i ∈ is, i < ZMXBLK) :
    Backed (is.foldl Cache.flush k) t ∧ ∀ d, (is.foldl Cache.flush k).Shows d ↔ k.Shows d := by
  induction is generalizing k with
  | nil => exact ⟨h,fun _ => Iff.rfl⟩
  | cons i is ih =>
      have hi := his i List.mem_cons_self
      obtain ⟨h',hs'⟩ := ih (h.flush hk ht hi) (hk.alike (alike_flush k i)) fun j hj => his j (List.mem_cons_of_mem _ hj)
      exact ⟨h',fun d => (hs' d).trans (h.shows_flush hk hi)⟩

omit [Build] in
theorem flushes_writes (k : Cache) (is : List Nat) (j : Nat) :
    ((is.foldl Cache.flush k).slot j).writes = if j ∈ is then 0 else (k.slot j).writes := by
  induction is generalizing k with
  | nil => rw [if_neg List.not_mem_nil, List.foldl_nil]
  | cons i is ih =>
      rw [List.foldl_cons, ih, (flush_slot k i j).2.2]
      by_cases hj : j = i <;> simp [hj]

end Backed

end Cache

end Btlib
