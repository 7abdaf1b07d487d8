import Mathlib.Data.List.TakeWhile
import Btlib.Cache.Handles
import Btlib.Machine.Slots

namespace Btlib

variable [Build] {k k' : Cache} {B : Finset Int} {last : Option Int} {blk : Int} {i j : Nat}

namespace Cache

-- The busy slots are those of the blocks in `B`, and no block is in two slots.
structure Keeps (k : Cache) (B : Finset Int) (last : Option Int) : Prop where
  lru : k.lru.Perm (List.range ZMXBLK)
  mem_of_busy : ∀ i < ZMXBLK, (k.slot i).busy = true → (k.slot i).inmem ∈ B
  nonneg : ∀ blk ∈ B, 0 ≤ blk
  inj : ∀ i < ZMXBLK, ∀ j < ZMXBLK, (k.slot i).inmem = (k.slot j).inmem → 0 ≤ (k.slot i).inmem → i = j
  found : ∀ blk ∈ B, ∃ i < ZMXBLK, (k.slot i).inmem = blk ∧ (k.slot i).busy = true
  label : ∀ i < ZMXBLK, ZNULL ≤ (k.slot i).inmem
  read : ∀ blk, last = some blk → ∃ i < ZMXBLK, (k.slot i).inmem = blk
  labelled : k.labelled < ZMXBLK

-- The slots look the same.
structure Alike (k k' : Cache) : Prop where
  lru : k'.lru.Perm k.lru
  inmem : ∀ i, (k'.slot i).inmem = (k.slot i).inmem
  busy : ∀ i, (k'.slot i).busy = (k.slot i).busy
  labelled : k'.labelled = k.labelled

omit [Build] in
theorem Alike.refl (k : Cache) : Alike k k := ⟨.refl _,fun _ => rfl,fun _ => rfl,rfl⟩

omit [Build] in
theorem Alike.trans {k'' : Cache} (h : Alike k k') (h' : Alike k' k'') : Alike k k'' :=
  ⟨h'.lru.trans h.lru,fun i => (h'.inmem i).trans (h.inmem i),fun i => (h'.busy i).trans (h.busy i),
    h'.labelled.trans h.labelled⟩

theorem Keeps.alike (h : Keeps k B last) (ha : Alike k k') : Keeps k' B last := by
  refine ⟨ha.lru.trans h.lru,?_,h.nonneg,?_,?_,?_,?_,ha.labelled ▸ h.labelled⟩
  · intro i hi hb
    rw [ha.inmem]
    exact h.mem_of_busy i hi (ha.busy i ▸ hb)
  · intro i hi j hj
    rw [ha.inmem, ha.inmem]
    exact h.inj i hi j hj
  · intro blk hblk
    obtain ⟨i,hi,hm,hb⟩ := h.found blk hblk
    exact ⟨i,hi,(ha.inmem i).trans hm,(ha.busy i).trans hb⟩
  · intro i hi
    rw [ha.inmem]
    exact h.label i hi
  · intro blk hblk
    obtain ⟨i,hi,hm⟩ := h.read blk hblk
    exact ⟨i,hi,(ha.inmem i).trans hm⟩

theorem Keeps.forget (h : Keeps k B last) : Keeps k B none :=
  ⟨h.lru,h.mem_of_busy,h.nonneg,h.inj,h.found,h.label,fun _ h => (by cases h),h.labelled⟩

omit [Build] in
theorem alike_setSlot (i : Nat) {f : Slot → Slot} (hm : ∀ s, (f s).inmem = s.inmem)
    (hb : ∀ s, (f s).busy = s.busy) : Alike k (k.setSlot i f) := by
  refine ⟨.refl _,fun j => ?_,fun j => ?_,rfl⟩ <;> simp only [setSlot, Function.update_apply] <;> split
  · rename_i h
    rw [hm, h]
  · rfl
  · rename_i h
    rw [hb, h]
  · rfl

omit [Build] in
theorem alike_file (k : Cache) (n : Nat) (d : Disk) : Alike k { k with turn := n, file := d } :=
  ⟨.refl _,fun _ => rfl,fun _ => rfl,rfl⟩

omit [Build] in
theorem alike_flush (k : Cache) (i : Nat) : Alike k (k.flush i) := by
  unfold flush
  split
  · have := alike_setSlot (k := k) i (f := fun s => { s with writes := 0 }) (fun _ => rfl) fun _ => rfl
    exact ⟨this.lru,this.inmem,this.busy,rfl⟩
  · exact .refl k

omit [Build] in
theorem alike_flushes (k : Cache) (is : List Nat) : Alike k (is.foldl flush k) := by
  induction is generalizing k with
  | nil => exact .refl k
  | cons i is ih => exact (alike_flush k i).trans (ih _)

theorem alike_onSlot (blk : Int) {f : Nat → Cache} (hf : ∀ i, Alike k (f i)) : Alike k (k.onSlot blk f) := by
  unfold onSlot
  split
  · exact hf _
  · exact .refl k

theorem Keeps.alike_bqmove (h : Keeps k B last) (hi : i < ZMXBLK) : Alike k (k.bqmove i) := by
  have hmem : i ∈ k.lru := h.lru.mem_iff.2 (List.mem_range.2 hi)
  exact ⟨(List.perm_append_singleton i _).trans (List.perm_cons_erase hmem).symm,fun _ => rfl,fun _ => rfl,rfl⟩

theorem findSlot_some (h : k.findSlot blk = some i) : i < ZMXBLK ∧ (k.slot i).inmem = blk :=
  ⟨List.mem_range.1 (List.mem_of_find?_eq_some h),by simpa using List.find?_some h⟩

theorem findSlot_none (h : k.findSlot blk = none) (hi : i < ZMXBLK) : (k.slot i).inmem ≠ blk := by
  simpa using List.find?_eq_none.1 h i (List.mem_range.2 hi)

theorem Keeps.idle (h : Keeps k B last) (hB : B.card < ZMXBLK) : ∃ i < ZMXBLK, (k.slot i).busy = false := by
  by_contra hno
  push Not at hno
  have hcard : (Finset.range ZMXBLK).card ≤ B.card := by
    refine Finset.card_le_card_of_injOn (fun i => (k.slot i).inmem) (fun i hi => ?_) fun i hi j hj hij => ?_
    · have hi := Finset.mem_range.1 hi
      exact h.mem_of_busy i hi (by simpa using hno i hi)
    · have hi := Finset.mem_range.1 hi
      have hj := Finset.mem_range.1 hj
      exact h.inj i hi j hj hij (h.nonneg _ (h.mem_of_busy i hi (by simpa using hno i hi)))
  rw [Finset.card_range] at hcard
  omega

theorem Keeps.bqhead (h : Keeps k B last) (hidle : ∃ i < ZMXBLK, (k.slot i).busy = false) :
    ∃ i k', k.bqhead = some (i, k') ∧ i < ZMXBLK ∧ (k.slot i).busy = false ∧ Alike k k' := by
  unfold Cache.bqhead
  cases hd : k.lru.dropWhile fun i => (k.slot i).busy with
  | nil =>
      obtain ⟨i,hi,hb⟩ := hidle
      have hall := List.dropWhile_eq_nil_iff.1 hd i (h.lru.mem_iff.2 (List.mem_range.2 hi))
      simp [hb] at hall
  | cons i lru =>
      have hhead : (k.slot i).busy = false := by
        have := List.head?_dropWhile_not (fun i => (k.slot i).busy) k.lru
        rw [hd] at this
        simpa using this
      have happ := List.takeWhile_append_dropWhile (p := fun i => (k.slot i).busy) (l := k.lru)
      rw [hd] at happ
      have hmem : i ∈ k.lru := by
        rw [← happ]
        simp
      refine ⟨i,_,rfl,List.mem_range.1 (h.lru.mem_iff.1 hmem),hhead,?_,fun _ => rfl,fun _ => rfl,rfl⟩
      dsimp only
      conv_rhs => rw [← happ]
      exact List.perm_append_comm

theorem Keeps.bgtslt (h : Keeps k B last) (hB : B.card < ZMXBLK) :
    ∃ i k', k.bgtslt = some (i, k') ∧ i < ZMXBLK ∧ (k.slot i).busy = false ∧ Alike k k' := by
  unfold Cache.bgtslt
  cases hf : k.freeSlot with
  | some i =>
      have hi := List.mem_range.1 (List.mem_of_find?_eq_some hf)
      have hneg : (k.slot i).inmem < 0 := by simpa using List.find?_some hf
      refine ⟨i,k,rfl,hi,?_,.refl k⟩
      by_contra hb
      have := h.nonneg _ (h.mem_of_busy i hi (by simpa using hb))
      omega
  | none =>
      obtain ⟨i,k',hq,hi,hb,ha⟩ := h.bqhead (h.idle hB)
      exact ⟨i,k'.flush i,by simp [hq],hi,hb,ha.trans (alike_flush k' i)⟩

theorem Keeps.relabel (h : Keeps k B last) (hi : i < ZMXBLK) (hb : (k.slot i).busy = false)
    (hblk : 0 ≤ blk) (hno : ∀ j < ZMXBLK, j ≠ i → (k.slot j).inmem ≠ blk) {f : Slot → Slot}
    (hm : ∀ s, (f s).inmem = blk) (hf : ∀ s, (f s).busy = s.busy) :
    Keeps (k.setSlot i f) B (some blk) := by
  have hself : ((k.setSlot i f).slot i).inmem = blk := by
    simp only [setSlot, Function.update_self, hm]
  have hbusy : ∀ j, ((k.setSlot i f).slot j).busy = (k.slot j).busy := by
    intro j
    by_cases hj : j = i
    · subst hj
      simp only [setSlot, Function.update_self, hf]
    · simp only [setSlot, Function.update_of_ne hj]
  have hother : ∀ j, j ≠ i → ((k.setSlot i f).slot j).inmem = (k.slot j).inmem := fun j hj => by
    simp only [setSlot, Function.update_of_ne hj]
  refine ⟨h.lru,?_,h.nonneg,?_,?_,?_,?_,h.labelled⟩
  · intro j hj hbj
    rw [hbusy] at hbj
    have hji : j ≠ i := fun h => by simp [h, hb] at hbj
    rw [hother j hji]
    exact h.mem_of_busy j hj hbj
  · intro j hj l hl hjl h0
    by_cases hji : j = i <;> by_cases hli : l = i
    · rw [hji, hli]
    · rw [hji, hself, hother l hli] at hjl
      exact absurd hjl.symm (hno l hl hli)
    · rw [hli, hself, hother j hji] at hjl
      exact absurd hjl (hno j hj hji)
    · rw [hother j hji] at hjl h0
      rw [hother l hli] at hjl
      exact h.inj j hj l hl hjl h0
  · intro b hbB
    obtain ⟨j,hj,hjm,hjb⟩ := h.found b hbB
    have hji : j ≠ i := fun h => by simp [h, hb] at hjb
    exact ⟨j,hj,(hother j hji).trans hjm,(hbusy j).trans hjb⟩
  · intro j hj
    by_cases hji : j = i
    · rw [hji, hself]
      exact le_trans (by decide) hblk
    · rw [hother j hji]
      exact h.label j hj
  · intro b hb'
    cases hb'
    exact ⟨i,hi,hself⟩

theorem Keeps.mark (h : Keeps k B last) (hi : i < ZMXBLK) (hm : (k.slot i).inmem = blk) (on : Bool)
    (hblk : on = true → 0 ≤ blk) :
    Keeps (k.setSlot i fun s => { s with busy := on }) (if on then insert blk B else B.erase blk) none := by
  have hinmem : ∀ j, ((k.setSlot i fun s => { s with busy := on }).slot j).inmem = (k.slot j).inmem := by
    intro j
    by_cases hj : j = i
    · subst hj
      simp only [setSlot, Function.update_self]
    · simp only [setSlot, Function.update_of_ne hj]
  have hself : ((k.setSlot i fun s => { s with busy := on }).slot i).busy = on := by
    simp only [setSlot, Function.update_self]
  have hother : ∀ j, j ≠ i →
      ((k.setSlot i fun s => { s with busy := on }).slot j).busy = (k.slot j).busy := fun j hj => by
    simp only [setSlot, Function.update_of_ne hj]
  refine ⟨h.lru,?_,?_,?_,?_,?_,fun _ h => (by cases h),h.labelled⟩
  · intro j hj hb
    rw [hinmem]
    by_cases hji : j = i
    · subst hji
      rw [hself] at hb
      subst hb
      simp [hm]
    · rw [hother j hji] at hb
      have hmem := h.mem_of_busy j hj hb
      cases on with
      | true => exact Finset.mem_insert_of_mem hmem
      | false =>
          refine Finset.mem_erase.2 ⟨fun heq => hji ?_,hmem⟩
          exact h.inj j hj i hi (heq.trans hm.symm) (h.nonneg _ hmem)
  · intro b hb
    cases on with
    | true =>
        rcases Finset.mem_insert.1 hb with rfl | hb
        · exact hblk rfl
        · exact h.nonneg b hb
    | false => exact h.nonneg b (Finset.mem_of_mem_erase hb)
  · intro j hj l hl
    rw [hinmem, hinmem]
    exact h.inj j hj l hl
  · intro b hb
    have hthere : b ≠ blk → b ∈ B → ∃ j < ZMXBLK,
        ((k.setSlot i fun s => { s with busy := on }).slot j).inmem = b ∧
          ((k.setSlot i fun s => { s with busy := on }).slot j).busy = true := by
      intro hne hb
      obtain ⟨j,hj,hjm,hjb⟩ := h.found b hb
      have hji : j ≠ i := fun hji => hne (by rw [← hjm, hji, hm])
      exact ⟨j,hj,(hinmem j).trans hjm,(hother j hji).trans hjb⟩
    cases on with
    | true =>
        by_cases hne : b = blk
        · exact ⟨i,hi,(hinmem i).trans (hm.trans hne.symm),hself⟩
        · exact hthere hne ((Finset.mem_insert.1 hb).resolve_left hne)
    | false => exact hthere (Finset.ne_of_mem_erase hb) (Finset.mem_of_mem_erase hb)
  · intro j hj
    rw [hinmem]
    exact h.label j hj

theorem Keeps.onSlot (h : Keeps k B last) (blk : Int) {f : Nat → Cache} (hf : ∀ i, Alike k (f i)) :
    Keeps (k.onSlot blk f) B none :=
  (h.alike (alike_onSlot blk hf)).forget

theorem keeps_initcntrl (hk : k.labelled < ZMXBLK) : Keeps k.initcntrl ∅ none := by
  refine ⟨.refl _,?_,?_,?_,?_,?_,fun _ h => (by cases h),hk⟩
  · intro i _ hb
    cases hb
  · intro b hb
    cases hb
  · intro i _ j _ _ h0
    exact absurd (show (0 : Int) ≤ ZNULL from h0) (by decide)
  · intro b hb
    cases hb
  · exact fun _ _ => le_rfl

theorem Keeps.brdblk (h : Keeps k B last) (hok : blk ∈ B ∨ B.card < ZMXBLK) :
    ∃ r k', k.brdblk blk = some (r, k') ∧ ((blk ∈ B → r ≠ none) ∧ (blk < ZNULL → r = none)) ∧
      Keeps k' B (if r = none then none else some blk) := by
  unfold Cache.brdblk
  cases hf : k.findSlot blk with
  | some i =>
      obtain ⟨hi,hm⟩ := findSlot_some hf
      refine ⟨_,_,rfl,⟨fun _ => by simp,fun hlt => ?_⟩,?_⟩
      · have := h.label i hi
        omega
      · rw [if_neg (by simp)]
        have hk := h.alike (h.alike_bqmove hi)
        refine ⟨hk.lru,hk.mem_of_busy,hk.nonneg,hk.inj,hk.found,hk.label,fun b hb => ?_,hk.labelled⟩
        cases hb
        exact ⟨i,hi,hm⟩
  | none =>
      have hnB : blk ∉ B := fun hB => by
        obtain ⟨i,hi,hm,-⟩ := h.found blk hB
        exact findSlot_none hf hi hm
      obtain ⟨i,k1,hs,hi,hb,ha⟩ := h.bgtslt (hok.resolve_left hnB)
      have hk1 := h.alike ha
      simp only [hs, Option.map_some]
      cases hr : k1.file.read blk with
      | none => exact ⟨_,_,rfl,⟨fun hB => absurd hB hnB,fun _ => rfl⟩,by simpa using hk1.forget⟩
      | some b =>
          have h0 : 0 ≤ blk := by
            unfold Disk.read at hr
            split at hr
            · rename_i hblk
              exact hblk.1
            · cases hr
          refine ⟨_,_,rfl,⟨fun _ => by simp,fun hlt => absurd (hlt.trans (by decide)) h0.not_gt⟩,?_⟩
          rw [if_neg (by simp)]
          have hk2 : Keeps (k1.setSlot i fun s => { s with inmem := blk, mem := b }) B (some blk) := by
            refine hk1.relabel hi ((ha.busy i).trans hb) h0 (fun j hj _ => ?_) (fun _ => rfl) fun _ => rfl
            rw [ha.inmem]
            exact findSlot_none hf hj
          exact hk2.alike (hk2.alike_bqmove hi)

section Damage

-- An allocation or a split gives up, or a block is made that is in memory already or is none: the file is
-- damaged then, or as long as it can be.
def Damaged (k : Cache) : Op → Prop
  | .report name _ => GivesUp name
  | .busy blk on => on = true ∧ blk < 0
  | .grow blk => blk < 0 ∨ ∃ i < ZMXBLK, (k.slot i).inmem = blk
  | .label blk => blk < 0 ∨ ∃ i < ZMXBLK, (k.slot i).inmem = blk
  | .relabel blk =>
      blk < 0 ∨ (k.slot k.labelled).busy = true ∨
        ∃ i < ZMXBLK, i ≠ k.labelled ∧ (k.slot i).inmem = blk
  | _ => False

instance (o : Op) (k : Cache) : Decidable (k.Damaged o) := by
  cases o <;> unfold Damaged <;> first | infer_instance | (unfold GivesUp; infer_instance)

-- The runs up to where the file shows damage.
def sane (env : Nat → Bool × Disk) : Prog.Machine Op Res Cache := fun o k =>
  if k.Damaged o then none else cached env o k

end Damage

theorem follows_sane (env : Nat → Bool × Disk) :
    Prog.Follows (busy True) (sane env) (fun k t => Keeps k t.1 t.2) fun o k => k.Damaged o := by
  rintro o k ⟨B,last⟩ hR hok
  unfold sane
  by_cases hd : k.Damaged o
  · rw [if_pos hd]
    exact hd
  rw [if_neg hd]
  have hR : Keeps k B last := hR
  cases o with
  | rd blk =>
      obtain ⟨r,k',hr,hadm,hk⟩ := hR.brdblk (hok trivial)
      simp only [cached, hr, Option.map_some]
      exact ⟨fun _ => hadm,hk⟩
  | wr blk b n => exact ⟨trivial,hR.onSlot blk fun i => alike_setSlot i (fun _ => rfl) fun _ => rfl⟩
  | busy blk on =>
      obtain ⟨i,hi,hm⟩ := hR.read blk (hok trivial)
      have hfs : ∃ l, k.findSlot blk = some l := by
        cases hf : k.findSlot blk with
        | some l => exact ⟨l,rfl⟩
        | none => exact absurd hm (findSlot_none hf hi)
      obtain ⟨l,hl⟩ := hfs
      obtain ⟨hli,hlm⟩ := findSlot_some hl
      refine ⟨trivial,?_⟩
      have hblk : on = true → 0 ≤ blk := fun hon => by
        by_contra hlt
        exact hd ⟨hon,by omega⟩
      have hmark := hR.mark hli hlm on hblk
      simp only [Cache.onSlot, hl]
      exact hmark
  | grow blk =>
      have hnew := not_or.1 hd
      obtain ⟨i,k1,hs,hi,hb,ha⟩ := hR.bgtslt (hok trivial)
      have hk1 := hR.alike ha
      have hk2 := hk1.alike (hk1.alike_bqmove hi)
      simp only [cached, hs, Option.map_some]
      refine ⟨fun _ => ⟨by omega,fun h => by cases h⟩,?_⟩
      have hno : ∀ j < ZMXBLK, j ≠ i → ((k1.bqmove i).slot j).inmem ≠ blk := fun j hj _ hj' =>
        hnew.2 ⟨j,hj,(ha.inmem j).symm.trans hj'⟩
      have hk3 := hk2.relabel hi ((ha.busy i).trans hb) (not_lt.1 hnew.1) hno
        (f := fun s => { s with inmem := blk, writes := 1 }) (fun _ => rfl) fun _ => rfl
      exact (hk3.alike (alike_flush _ i)).forget
  | label blk =>
      have hnew := not_or.1 hd
      obtain ⟨i,k1,hs,hi,hb,ha⟩ := hR.bgtslt (hok trivial)
      have hk1 := hR.alike ha
      simp only [cached, hs, Option.map_some]
      refine ⟨trivial,?_⟩
      have hno : ∀ j < ZMXBLK, j ≠ i → (k1.slot j).inmem ≠ blk := fun j hj _ hj' =>
        hnew.2 ⟨j,hj,(ha.inmem j).symm.trans hj'⟩
      have hk2 := (hk1.relabel hi ((ha.busy i).trans hb) (not_lt.1 hnew.1) hno
        (f := fun s => { s with inmem := blk }) (fun _ => rfl) fun _ => rfl).forget
      exact ⟨hk2.lru,hk2.mem_of_busy,hk2.nonneg,hk2.inj,hk2.found,hk2.label,hk2.read,hi⟩
  | relabel blk =>
      obtain ⟨h0,hnew⟩ := not_or.1 hd
      obtain ⟨hb,hnew⟩ := not_or.1 hnew
      have hno : ∀ j < ZMXBLK, j ≠ k.labelled → (k.slot j).inmem ≠ blk := fun j hj hne hj' =>
        hnew ⟨j,hj,hne,hj'⟩
      exact ⟨trivial,(hR.relabel hR.labelled (by simpa using hb) (not_lt.1 h0) hno
        (f := fun s => { s with inmem := blk }) (fun _ => rfl) fun _ => rfl).forget⟩
  | mark blk => exact ⟨trivial,hR.onSlot blk fun i => ⟨.refl _,fun _ => rfl,fun _ => rfl,rfl⟩⟩
  | through n blk =>
      refine ⟨trivial,?_⟩
      change Keeps (if n < (k.slot k.marked).writes then k.onSlot blk k.flush else k) B none
      split
      · exact hR.onSlot blk fun i => alike_flush k i
      · exact hR.forget
  | wrblk blk => exact ⟨trivial,hR.onSlot blk fun i => alike_flush k i⟩
  | wrall => exact ⟨trivial,(hR.alike (alike_flushes k _)).forget⟩
  | initcntrl => exact ⟨trivial,keeps_initcntrl hR.labelled⟩
  | lock =>
      simp only [cached]
      cases (env k.turn).1 with
      | true => exact ⟨trivial,(hR.alike (alike_file k _ _)).forget⟩
      | false => exact ⟨trivial,(hR.alike (alike_file k _ k.file)).forget⟩
  | unlock => exact ⟨trivial,hR.forget⟩
  | creat => exact ⟨trivial,(hR.alike (alike_file k k.turn _)).forget⟩
  | fopen => exact ⟨trivial,hR.forget⟩
  | fclose => exact ⟨trivial,hR.forget⟩
  | report name code => exact ⟨fun _ => hd,hR⟩

end Cache

end Btlib
