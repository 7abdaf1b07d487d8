import Btlib.Cache.Slots
import Btlib.Machine.Store
import Btlib.Source.Files

namespace Btlib

-- A handle with its cache.
structure Seat where
  ctx : Ctx
  cache : Cache

variable [Build] {α β : Type} {e : Nat → Bool × Disk} {s : Seat} {k : Cache} {l : List Int} {blk a b : Int}
  {i j : Nat}

-- A call on the machine that has a cache.
def enact (e : Nat → Bool × Disk) (x : BT α) (s : Seat) : Prog.Outcome Op Cache (α × Seat) :=
  ((x s.ctx).run (cached e) s.cache).map fun r => (r.1.1, ⟨r.1.2, r.2⟩)

section Enact

@[simp] theorem enact_pure (a : α) : enact e (pure a) s = .done (a, s) := rfl

@[simp] theorem enact_bind (x : BT α) (f : α → BT β) :
    enact e (x >>= f) s = (enact e x s).bind fun r => enact e (f r.1) r.2 := by
  change Prog.Outcome.map _ (((x s.ctx).bind fun r => f r.1 r.2).run (cached e) s.cache) = _
  rw [Prog.run_bind]
  simp only [enact]
  cases (x s.ctx).run (cached e) s.cache <;> rfl

theorem enact_then {x : BT α} {f : α → BT β} {s' : Seat} {a : α} (h : enact e x s = .done (a, s')) :
    enact e (x >>= f) s = enact e (f a) s' := by
  rw [enact_bind, h, Prog.Outcome.bind_done]

@[simp] theorem enact_get : enact e (get : BT Ctx) s = .done (s.ctx, s) := rfl

@[simp] theorem enact_modify (f : Ctx → Ctx) :
    enact e (modify f : BT Unit) s = .done ((), { s with ctx := f s.ctx }) := rfl

@[simp] theorem enact_ite (p : Prop) [Decidable p] (x y : BT α) :
    enact e (if p then x else y) s = if p then enact e x s else enact e y s := by
  split <;> rfl

@[simp] theorem enact_setSuper (f : Super → Super) :
    enact e (setSuper f) s = .done ((), { s with ctx.super := f s.ctx.super }) := rfl

@[simp] theorem enact_setLf (f : Lf → Lf) :
    enact e (setLf f) s = .done ((), { s with ctx.lf := f s.ctx.lf }) := rfl

@[simp] theorem enact_bterr0 : enact e bterr0 s = .done ((), { s with ctx.err := ⟨"", 0, .none⟩ }) := rfl

@[simp] theorem enact_btgerr : enact e btgerr s = .done (s.ctx.err.qerror, s) := rfl

theorem enact_ask {o : Op} {r : Res o × Cache} (h : cached e o s.cache = some r) :
    enact e (ask o) s = .done (r.1, { s with cache := r.2 }) := by
  simp only [enact, ask, Prog.call, Prog.bind, Prog.run, h]
  rfl

end Enact

-- What the slots made since the cache was last cleared are for, the others being empty.
structure Laid (k : Cache) (l : List Int) : Prop where
  inmem : ∀ i < ZMXBLK, (k.slot i).inmem = l.getD i ZNULL
  writes : ∀ i < ZMXBLK, 0 ≤ (k.slot i).writes
  nodup : l.Nodup
  nonneg : ∀ b ∈ l, 0 ≤ b
  length : l.length ≤ ZMXBLK

namespace Laid

variable {f : Slot → Slot}

theorem lt (h : Laid k l) (hi : l[i]? = some b) : i < ZMXBLK :=
  Nat.lt_of_lt_of_le (List.getElem?_eq_some_iff.1 hi).1 h.length

theorem inmem_eq (h : Laid k l) (hi : l[i]? = some b) : (k.slot i).inmem = b := by
  rw [h.inmem i (h.lt hi), List.getD_eq_getElem?_getD, hi]
  rfl

theorem getElem?_of_inmem (h : Laid k l) (hj : j < ZMXBLK) (hm : (k.slot j).inmem = b) (h0 : 0 ≤ b) : l[j]? = some b := by
  rw [h.inmem j hj, List.getD_eq_getElem?_getD] at hm
  cases hlj : l[j]? with
  | none =>
      rw [hlj] at hm
      have hneg : (-1 : Int) = b := hm
      omega
  | some c =>
      rw [hlj] at hm
      exact congrArg some hm

theorem findSlot (h : Laid k l) (hi : l[i]? = some b) : k.findSlot b = some i := by
  cases hf : k.findSlot b with
  | none => exact absurd (h.inmem_eq hi) (Cache.findSlot_none hf (h.lt hi))
  | some j =>
      obtain ⟨hj,hjm⟩ := Cache.findSlot_some hf
      have hlj := h.getElem?_of_inmem hj hjm (h.nonneg b (List.mem_of_getElem? hi))
      rw [(List.getElem?_inj (List.getElem?_eq_some_iff.1 hi).1 h.nodup).1 (hi.trans hlj.symm)]

theorem findSlot_none (h : Laid k l) (h0 : 0 ≤ b) (hb : b ∉ l) : k.findSlot b = none := by
  cases hf : k.findSlot b with
  | none => rfl
  | some j =>
      obtain ⟨hj,hjm⟩ := Cache.findSlot_some hf
      exact absurd (List.mem_of_getElem? (h.getElem?_of_inmem hj hjm h0)) hb

theorem freeSlot (h : Laid k l) (hlen : l.length < ZMXBLK) : k.freeSlot = some l.length := by
  unfold Cache.freeSlot
  rw [List.find?_range_eq_some]
  refine ⟨?_,List.mem_range.2 hlen,fun j hj => ?_⟩
  · rw [h.inmem _ hlen, List.getD_eq_default _ _ (Nat.le_refl _)]
    rfl
  · have hm := h.nonneg _ (List.getElem_mem hj)
    rw [h.inmem j (by omega), List.getD_eq_getElem _ _ hj]
    simpa using hm

theorem bgtslt (h : Laid k l) (hlen : l.length < ZMXBLK) : k.bgtslt = some (l.length, k) := by
  simp only [Cache.bgtslt, h.freeSlot hlen]

theorem bqmove (h : Laid k l) (i : Nat) : Laid (k.bqmove i) l := ⟨h.inmem,h.writes,h.nodup,h.nonneg,h.length⟩

theorem setSlot (h : Laid k l) (i : Nat) (hm : (f (k.slot i)).inmem = (k.slot i).inmem)
    (hw : 0 ≤ (k.slot i).writes → 0 ≤ (f (k.slot i)).writes) : Laid (k.setSlot i f) l := by
  refine ⟨fun j hj => ?_,fun j hj => ?_,h.nodup,h.nonneg,h.length⟩
  · rcases eq_or_ne j i with rfl | hne
    · simp only [Cache.setSlot, Function.update_self, hm]
      exact h.inmem j hj
    · simp only [Cache.setSlot, Function.update_of_ne hne]
      exact h.inmem j hj
  · rcases eq_or_ne j i with rfl | hne
    · simp only [Cache.setSlot, Function.update_self]
      exact hw (h.writes j hj)
    · simp only [Cache.setSlot, Function.update_of_ne hne]
      exact h.writes j hj

theorem flush (h : Laid k l) (i : Nat) : Laid (k.flush i) l := by
  unfold Cache.flush
  split
  · have := h.setSlot i (f := fun s => { s with writes := 0 }) rfl fun _ => Int.le_refl 0
    exact ⟨this.inmem,this.writes,h.nodup,h.nonneg,h.length⟩
  · exact h

theorem flushes (h : Laid k l) (is : List Nat) : Laid (is.foldl Cache.flush k) l := by
  induction is generalizing k with
  | nil => exact h
  | cons i is ih => exact ih (h.flush i)

theorem last (h : Laid k (l ++ [a]) ∨ Laid k l) (hlen : l.length < ZMXBLK) (h0 : 0 ≤ b) (hb : b ∉ l)
    (hm : ∀ s, (f s).inmem = b) (hf : ∀ s, (f s).writes = s.writes) : Laid (k.setSlot l.length f) (l ++ [b]) := by
  have hnodup : (l ++ [b]).Nodup ∧ ∀ c ∈ l, 0 ≤ c := by
    have hl : l.Nodup ∧ ∀ c ∈ l, 0 ≤ c := by
      rcases h with h | h
      · exact ⟨(List.nodup_append.1 h.nodup).1,fun c hc => h.nonneg c (List.mem_append_left _ hc)⟩
      · exact ⟨h.nodup,h.nonneg⟩
    refine ⟨List.nodup_append.2 ⟨hl.1,List.nodup_singleton b,fun c hc d hd => ?_⟩,hl.2⟩
    rw [List.mem_singleton.1 hd]
    exact ne_of_mem_of_not_mem hc hb
  have hold : ∀ j < ZMXBLK, j ≠ l.length → (k.slot j).inmem = (l ++ [b]).getD j ZNULL := fun j hj hne => by
    have hget : ∀ c : Int, (l ++ [c]).getD j ZNULL = l.getD j ZNULL := fun c => by
      simp only [List.getD_eq_getElem?_getD]
      rcases Nat.lt_or_gt_of_ne hne with hlt | hgt
      · rw [List.getElem?_append_left hlt]
      · rw [List.getElem?_eq_none (by simp; omega), List.getElem?_eq_none (by omega)]
    rw [hget]
    rcases h with h | h
    · rw [h.inmem j hj, hget]
    · exact h.inmem j hj
  have hwrites : ∀ j < ZMXBLK, 0 ≤ (k.slot j).writes := by
    rcases h with h | h <;> exact h.writes
  refine ⟨fun j hj => ?_,fun j hj => ?_,hnodup.1,fun c hc => ?_,by simpa using Nat.succ_le_of_lt hlen⟩
  · rcases eq_or_ne j l.length with rfl | hne
    · simp [Cache.setSlot, hm]
    · simp only [Cache.setSlot, Function.update_of_ne hne]
      exact hold j hj hne
  · rcases eq_or_ne j l.length with rfl | hne
    · simp only [Cache.setSlot, Function.update_self, hf]
      exact hwrites _ hj
    · simp only [Cache.setSlot, Function.update_of_ne hne]
      exact hwrites j hj
  · rcases List.mem_append.1 hc with hc | hc
    · exact hnodup.2 c hc
    · rw [List.mem_singleton.1 hc]
      exact h0

end Laid

theorem laid_initcntrl (k : Cache) : Laid k.initcntrl [] :=
  ⟨fun i _ => by simp [Cache.initcntrl],fun _ _ => Int.le_refl 0,List.nodup_nil,fun _ h => absurd h List.not_mem_nil,
    Nat.zero_le _⟩

omit [Build] in
theorem slot_setSlot {f : Slot → Slot} (hne : j ≠ i) : (k.setSlot i f).slot j = k.slot j :=
  Function.update_of_ne hne _ _

theorem findSlot_setSlot {f : Slot → Slot} (hf : ∀ s, (f s).inmem = s.inmem) :
    (k.setSlot i f).findSlot b = k.findSlot b := by
  have hm : ∀ j, ((k.setSlot i f).slot j).inmem = (k.slot j).inmem := fun j => by
    rcases eq_or_ne j i with rfl | hne
    · simp only [Cache.setSlot, Function.update_self, hf]
    · rw [slot_setSlot hne]
  simp only [Cache.findSlot, hm]

section Found

variable (h : s.cache.findSlot blk = some i)
include h

theorem enact_brdblk : enact e (brdblk blk) s =
    .done (some (s.cache.slot i).mem, { s with cache := s.cache.bqmove i }) := by
  have hrd : cached e (.rd blk) s.cache = some ((some (s.cache.slot i).mem, false), s.cache.bqmove i) := by
    simp only [cached, Cache.brdblk, h, Option.map_some]
  simp only [brdblk, enact_bind, enact_ask hrd, Prog.Outcome.bind_done, Bool.false_eq_true, if_false, enact_pure]

theorem enact_wr (b : Block) (n : Int) : enact e (wr blk b n) s = .done ((), { s with
    cache := s.cache.setSlot i fun s => { s with mem := b, writes := s.writes + n } }) := by
  have hwr : cached e (.wr blk b n) s.cache =
      some ((), s.cache.setSlot i fun s => { s with mem := b, writes := s.writes + n }) := by
    simp only [cached, Cache.onSlot, h]
  exact enact_ask hwr

theorem enact_wrblk : enact e (bwrblk blk) s = .done (true, { s with cache := s.cache.flush i }) := by
  have hwr : cached e (.wrblk blk) s.cache = some (true, s.cache.flush i) := by
    simp only [cached, Cache.onSlot, h]
  exact enact_ask hwr

theorem enact_bgtinf (w : Inf) : enact e (bgtinf blk w) s =
    .done ((s.cache.slot i).mem.getInf w, { s with cache := s.cache.bqmove i }) := by
  simp only [bgtinf, enact_bind, enact_brdblk h, Prog.Outcome.bind_done, enact_pure]

theorem enact_bsetbs (on : Bool) : enact e (bsetbs blk on) s = .done ((), { s with
    cache := (s.cache.bqmove i).setSlot i fun s => { s with busy := on } }) := by
  have h1 : (s.cache.bqmove i).findSlot blk = some i := h
  have hbusy : cached e (.busy blk on) (s.cache.bqmove i) =
      some ((), (s.cache.bqmove i).setSlot i fun s => { s with busy := on }) := by
    simp only [cached, Cache.onSlot, h1]
  refine (enact_then (enact_brdblk h)).trans ?_
  exact enact_ask (s := ⟨s.ctx,s.cache.bqmove i⟩) hbusy

-- What `bsetbk` leaves in the cache.
def Cache.setbk (k : Cache) (i : Nat) (type misc nxblk nkeys nblks dupblk : Int) : Cache :=
  ((k.bqmove i).bqmove i).setSlot i fun s =>
    { s with mem := (k.slot i).mem.setBk type misc nxblk nkeys nblks dupblk, writes := s.writes + 1 + 1 }

theorem enact_bsetbk (type misc nxblk nkeys nblks dupblk : Int) :
    enact e (bsetbk blk type misc nxblk nkeys nblks dupblk) s =
      .done ((), { s with cache := s.cache.setbk i type misc nxblk nkeys nblks dupblk }) := by
  have h1 : (s.cache.bqmove i).findSlot blk = some i := h
  have h2 : ((s.cache.bqmove i).bqmove i).findSlot blk = some i := h
  simp only [bsetbk, enact_bind, enact_brdblk h, Prog.Outcome.bind_done, bstinf,
    enact_brdblk (s := ⟨s.ctx,s.cache.bqmove i⟩) h1, enact_wr (s := ⟨s.ctx,(s.cache.bqmove i).bqmove i⟩) h2]
  rw [enact_wr (i := i)]
  · simp only [Cache.setbk, Cache.setSlot, Function.update_self, Function.update_idem]
    rfl
  · rw [findSlot_setSlot]
    · exact h2
    · exact fun _ => rfl

end Found

theorem Laid.setbk (h : Laid k l) (i : Nat) (type misc nxblk nkeys nblks dupblk : Int) :
    Laid (k.setbk i type misc nxblk nkeys nblks dupblk) l :=
  ((h.bqmove i).bqmove i).setSlot i rfl fun hw => by
    change 0 ≤ _ + 1 + 1
    omega

section Setbk

variable {type misc nxblk nkeys nblks dupblk : Int}

theorem Cache.mem_setbk : ((k.setbk i type misc nxblk nkeys nblks dupblk).slot i).mem =
    (k.slot i).mem.setBk type misc nxblk nkeys nblks dupblk := by
  simp only [Cache.setbk, Cache.setSlot, Function.update_self]

theorem Cache.writes_setbk : ((k.setbk i type misc nxblk nkeys nblks dupblk).slot i).writes =
    (k.slot i).writes + 1 + 1 := by
  simp only [Cache.setbk, Cache.setSlot, Function.update_self]
  rfl

theorem Cache.slot_setbk (hne : j ≠ i) : (k.setbk i type misc nxblk nkeys nblks dupblk).slot j = k.slot j := by
  simp only [Cache.setbk, Cache.setSlot, Function.update_of_ne hne]
  rfl

end Setbk


end Btlib
