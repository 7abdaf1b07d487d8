import Btlib.Cache.SlotFactsCalls
import Btlib.Cache.Mirror
import Btlib.Cache.SlotSafe
import Btlib.Index.Refine

namespace Btlib

namespace Cache

section Parts

variable [Build] {k k' : Cache} {blk : Int}

-- Where the cache is not like its file: an allocation, a split or a push gives up, the null link is read
-- while a slot is free, or a negative number of keys is copied.
def Parts (k : Cache) : Op → Prop
  | .report name _ => GivesUp name ∨ name = "BPUSH"
  | .rd blk => blk = ZNULL ∧ ∃ i < ZMXBLK, (k.slot i).inmem = ZNULL
  | .wr _ _ n => n < 0
  | _ => False

-- Whether there is a free slot.
instance (k : Cache) : Decidable (∃ i < ZMXBLK, (k.slot i).inmem = ZNULL) :=
  decidable_of_iff ((List.range ZMXBLK).any fun i => decide ((k.slot i).inmem = ZNULL)) (by simp)

instance (o : Op) (k : Cache) : Decidable (k.Parts o) :=
  match o with
  | .report name _ => inferInstanceAs (Decidable ((name = "BGTFRE" ∨ name = "BSPTBK") ∨ name = "BPUSH"))
  | .rd blk => inferInstanceAs (Decidable (blk = ZNULL ∧ ∃ i < ZMXBLK, (k.slot i).inmem = ZNULL))
  | .wr _ _ n => inferInstanceAs (Decidable (n < 0))
  | .busy .. | .grow _ | .mark _ | .through .. | .wrblk _ | .wrall | .initcntrl | .lock | .unlock | .creat | .fopen
  | .fclose | .label _ | .relabel _ => .isFalse id

-- The runs up to there.
def shown (env : Nat → Bool × Disk) : Prog.Machine Op Res Cache := fun o k =>
  if k.Parts o then none else cached env o k

structure Fits (k : Cache) (t : (Finset Int × Option Int) × SlotFacts) : Prop where
  keeps : Keeps k t.1.1 t.1.2
  marks : t.2.busy = t.1.1
  backed : Backed k t.2

variable {t : (Finset Int × Option Int) × SlotFacts} {o : Op}

theorem Fits.sound (h : Fits k t) (hok : slotFacts.ok o t.2) (hp : ¬ k.Parts o) : ¬ k.Damaged o := by
  cases o with
  | report name code => exact fun hd => hp (Or.inl hd)
  | busy blk on => exact fun hd => absurd (h.backed.hand blk hok.2).1 (not_le.2 hd.2)
  | grow blk =>
      have hend : blk = k.file.size := hok.2.trans h.backed.size
      rintro (hd | ⟨i,hi,hd⟩)
      · have := h.backed.nonneg
        omega
      · have := h.backed.below i hi
        omega
  | label blk => exact hok.elim
  | relabel blk => exact hok.elim
  | _ => exact id

variable {e : SlotFacts}

theorem Backed.unseen (h : Backed k e) (hm : ∀ i, (k'.slot i).inmem = (k.slot i).inmem)
    (hmem : ∀ i, (k'.slot i).mem = (k.slot i).mem) (hw : ∀ i, (k'.slot i).writes = (k.slot i).writes)
    (hf : k'.file = k.file) : Backed k' e ∧ ∀ d, k'.Shows d ↔ k.Shows d :=
  ⟨h.congr hm hmem hw hf,fun _ => shows_congr (by rw [hf]) fun _ _ _ => view_congr hm hmem fun _ => by rw [hf]⟩

theorem Fits.step (env : Nat → Bool × Disk) (h : Fits k t) (hok : slotFacts.ok o t.2)
    (hbusy : (busy True).ok o t.1) (hp : ¬ k.Parts o) {r : Res o × Cache}
    (hr : cached env o k = some r) :
    slotFacts.adm o t.2 r.1 ∧ Backed r.2 (slotFacts.next o t.2 r.1) ∧
      ∀ d', r.2.Shows d' → ∃ d, k.Shows d ∧ plain o d = some (r.1, d') := by
  cases o with
  | rd blk =>
      obtain ⟨⟨b,k1⟩,hb,rfl⟩ := Option.map_eq_some_iff.1 hr
      have hz : ∀ i < ZMXBLK, (k.slot i).inmem = blk → 0 ≤ blk := fun i hi hm => by
        by_contra hneg
        have hge : -1 ≤ (k.slot i).inmem := h.keeps.label i hi
        have hnull : blk = -1 := by omega
        exact hp ⟨hnull,i,hi,hm.trans hnull⟩
      obtain ⟨hadm,hbk,hback⟩ := h.backed.brdblk h.keeps hok (hbusy trivial) hz hb
      refine ⟨⟨h.marks ▸ hadm,rfl⟩,hbk,fun d hd => ⟨d,(hback d hd).1,?_⟩⟩
      simp only [plain, (hback d hd).2]
  | wr blk b n =>
      cases hr
      obtain ⟨hbk,hback⟩ := h.backed.wr h.keeps hok b (not_lt.1 hp)
      refine ⟨trivial,hbk,fun d' hd' => ?_⟩
      obtain ⟨d,hd,rfl⟩ := hback d' hd'
      exact ⟨d,hd,rfl⟩
  | busy blk on =>
      cases hr
      obtain ⟨h0,i,hi,hm⟩ := h.backed.hand blk hok.2
      have hun : Backed (k.onSlot blk fun i => k.setSlot i fun s => { s with busy := on }) t.2 ∧
          ∀ d, (k.onSlot blk fun i => k.setSlot i fun s => { s with busy := on }).Shows d ↔ k.Shows d := by
        unfold onSlot
        split
        · refine h.backed.unseen (fun j => ?_) (fun j => ?_) (fun j => ?_) rfl <;>
          · rw [slot_setSlot]
            split
            · rename_i hj
              rw [hj]
            · rfl
        · exact ⟨h.backed,fun _ => Iff.rfl⟩
      have hb := hun.1
      exact ⟨trivial,⟨hb.size,hb.nonneg,hb.below,hb.writes,hb.free,hb.clean,hb.hand,hb.dirty⟩,
        fun d hd => ⟨d,(hun.2 d).1 hd,rfl⟩⟩
  | grow blk =>
      obtain ⟨⟨i,k1⟩,hb,rfl⟩ := Option.map_eq_some_iff.1 hr
      obtain ⟨j,k2,hs,hi,ha,h1,hs1,hw⟩ := h.backed.bgtslt h.keeps hok.1 (hbusy trivial)
      obtain ⟨rfl,rfl⟩ := Prod.mk.inj (Option.some.inj (hb.symm.trans hs))
      have hk1 := h.keeps.alike ha
      have h1' : Backed (k1.bqmove i) t.2 := h1.congr (fun _ => rfl) (fun _ => rfl) (fun _ => rfl) rfl
      obtain ⟨hbk,hback⟩ := h1'.grow (hk1.alike (hk1.alike_bqmove hi)) hok.1 hi hw hok.2
      refine ⟨rfl,hbk,fun d' hd' => ?_⟩
      obtain ⟨d,hd,rfl⟩ := hback d' hd'
      exact ⟨d,(hs1 d).1 (shows_bqmove.1 hd),rfl⟩
  | mark blk =>
      cases hr
      have hun : Backed (k.onSlot blk fun i => { k with marked := i }) t.2 ∧
          ∀ d, (k.onSlot blk fun i => { k with marked := i }).Shows d ↔ k.Shows d := by
        unfold onSlot
        split
        · exact h.backed.unseen (fun _ => rfl) (fun _ => rfl) (fun _ => rfl) rfl
        · exact ⟨h.backed,fun _ => Iff.rfl⟩
      exact ⟨trivial,hun.1,fun d hd => ⟨d,(hun.2 d).1 hd,rfl⟩⟩
  | through n blk =>
      cases hr
      have hun : Backed (if n < (k.slot k.marked).writes then k.onSlot blk k.flush else k) t.2 ∧
          ∀ d, (if n < (k.slot k.marked).writes then k.onSlot blk k.flush else k).Shows d ↔ k.Shows d := by
        split
        · exact h.backed.onSlot_flush h.keeps hok blk
        · exact ⟨h.backed,fun _ => Iff.rfl⟩
      exact ⟨trivial,hun.1,fun d hd => ⟨d,(hun.2 d).1 hd,rfl⟩⟩
  | wrblk blk =>
      cases hr
      have hback := (h.backed.onSlot_flush h.keeps hok blk).2
      exact ⟨trivial,h.backed.wrblk h.keeps hok blk,fun d hd => ⟨d,(hback d).1 hd,rfl⟩⟩
  | wrall =>
      cases hr
      obtain ⟨hbk,hback⟩ := h.backed.wrall h.keeps hok.1
      exact ⟨trivial,hbk,fun d hd => ⟨d,(hback d).1 hd,rfl⟩⟩
  | initcntrl =>
      cases hr
      obtain ⟨hbk,hback⟩ := h.backed.initcntrl hok.1 hok.2
      exact ⟨trivial,hbk,fun d hd => ⟨d,(hback d).1 hd,rfl⟩⟩
  | unlock =>
      cases hr
      exact ⟨trivial,h.backed,fun d hd => ⟨d,hd,rfl⟩⟩
  | fclose =>
      cases hr
      exact ⟨trivial,h.backed,fun d hd => ⟨d,hd,rfl⟩⟩
  | report name code =>
      cases hr
      refine ⟨trivial,h.backed,fun d hd => ⟨d,hd,?_⟩⟩
      have hname : ¬ (name = "BGTFRE" ∨ name = "BPUSH") := fun hn =>
        hp (hn.imp_left fun h => Or.inl h)
      simp only [plain, if_neg hname]
  | _ => exact hok.elim

-- A machine of caches that mirrors the file as it is with the slots written out.
def Mirrored (m : Prog.Machine Op Res Cache) : Prop :=
  Prog.Mirrors ((busy True).both slotFacts) m plain Fits Shows fun o k => k.Parts o

theorem mirrors_shown (env : Nat → Bool × Disk) : Mirrored (shown env) := by
  rintro o k t hR ⟨hbusy,hfacts⟩
  unfold shown
  by_cases hp : k.Parts o
  · rw [if_pos hp]
    exact hp
  rw [if_neg hp]
  have hnd := hR.sound hfacts hp
  have hk := follows_sane env o k t.1 hR.keeps hbusy
  rw [sane, if_neg hnd] at hk
  cases hr : cached env o k with
  | none =>
      rw [hr] at hk
      exact absurd hk hnd
  | some r =>
      rw [hr] at hk
      obtain ⟨hadm,hbk,hback⟩ := hR.step env hfacts hbusy hp hr
      refine ⟨⟨hk.1,hadm⟩,⟨hk.2,?_,hbk⟩,hback⟩
      have hb := hR.marks
      cases o <;> first | exact hb | exact hfacts.elim | rfl | simp only [Prog.Protocol.both, busy, slots, slotFacts, hb]

end Parts

end Cache

section Programs

variable [Build] {k : Cache} {α : Type} {c : Ctx}

-- Programs over the calls on the root of an open handle: what is called next may depend on all answers so far.
inductive Uses : ∀ {α : Type}, BT α → Prop
  | pure {α : Type} (a : α) : Uses (pure a : BT α)
  | bind {α β : Type} {x : BT α} {f : α → BT β} : Uses x → (∀ a, Uses (f a)) → Uses (x >>= f)
  | binsky (key : Key) (val : Int) : Uses (Btlib.binsky key val)
  | bfndky (key : Key) : Uses (Btlib.bfndky key)
  | bupdky (key : Option Key) (val : Int) : Uses (Btlib.bupdky key val)
  | bdelky (key : Option Key) : Uses (Btlib.bdelky key)
  | bnxtky : Uses Btlib.bnxtky
  | bprvky : Uses Btlib.bprvky
  | btpos (pos : Int) : Uses (Btlib.btpos pos)
  | btins (key : Key) (data : List Byte) (dsize : Int) : Uses (Btlib.btins key data dsize)
  | btupd (key : Option Key) (data : List Byte) (dsize : Int) : Uses (Btlib.btupd key data dsize)
  | btsel (key : Key) (dsize : Int) : Uses (Btlib.btsel key dsize)
  | btdel (key : Option Key) : Uses (Btlib.btdel key)
  | btrecs (key : Option Key) : Uses (Btlib.btrecs key)
  | btdups (dups : Int) : Uses (Btlib.btdups dups)
  | btsync : Uses Btlib.btsync
  | btcls : Uses Btlib.btcls

variable {x : BT α}

theorem Uses.heeds (hcap : 3 ≤ ZMXKEY) (hx : Uses x) : Heeds x := by
  induction hx with
  | pure a => exact (KeepsFacts.pure a).heeds
  | bind _ _ ihx ihf => exact ihx.bind ihf
  | binsky key val => exact (keepsFacts_binsky hcap key val).heeds
  | bfndky key => exact (keepsFacts_bfndky hcap key).heeds
  | bupdky key val => exact (keepsFacts_bupdky hcap key val).heeds
  | bdelky key => exact (keepsFacts_bdelky hcap key).heeds
  | bnxtky => exact (keepsFacts_bnxtky hcap).heeds
  | bprvky => exact (keepsFacts_bprvky hcap).heeds
  | btpos pos => exact (keepsFacts_btpos pos).heeds
  | btins key data dsize => exact (keepsFacts_btins hcap key data dsize).heeds
  | btupd key data dsize => exact (keepsFacts_btupd hcap key data dsize).heeds
  | btsel key dsize => exact (keepsFacts_btsel hcap key dsize).heeds
  | btdel key => exact (keepsFacts_btdel hcap key).heeds
  | btrecs key => exact (keepsFacts_btrecs hcap key).heeds
  | btdups dups => exact (keepsFacts_btdups dups).heeds
  | btsync => exact heeds_btsync
  | btcls => exact heeds_btcls

theorem Uses.slotSafe (hx : Uses x) : SlotSafe x := by
  induction hx with
  | pure a => exact (MarksKept.pure a).slotSafe
  | bind _ _ ihx ihf => exact ihx.bind ihf
  | binsky key val => exact (marksKept_binsky Nat.one_lt_two key val).slotSafe
  | bfndky key => exact (marksKept_bfndky Nat.one_lt_two key).slotSafe
  | bupdky key val => exact slotSafe_bupdky key val
  | bdelky key => exact slotSafe_bdelky key
  | bnxtky => exact (marksKept_bnxtky Nat.one_lt_two).slotSafe
  | bprvky => exact (marksKept_bprvky Nat.one_lt_two).slotSafe
  | btpos pos => exact slotSafe_btpos pos
  | btins key data dsize => exact slotSafe_btins key data dsize
  | btupd key data dsize => exact slotSafe_btupd key data dsize
  | btsel key dsize => exact slotSafe_btsel key dsize
  | btdel key => exact slotSafe_btdel key
  | btrecs key => exact slotSafe_btrecs key
  | btdups dups => exact slotSafe_btdups dups
  | btsync => exact (marksKept_btsync Nat.two_pos).slotSafe
  | btcls => exact slotSafe_btcls

-- A handle of its own between two calls: its slots hold blocks of the file, one of them marked at most, and
-- what they hold is in the file unless it is counted as changed.
structure BetweenCalls (c : Ctx) (k : Cache) : Prop where
  shared : c.shared = false
  size : c.super.sblkmx = k.file.size
  keeps : ∃ B, k.Keeps B none ∧ B.card ≤ 1
  backed : k.Backed ⟨∅, none, k.file.size, true, none, none⟩

theorem BetweenCalls.fits (h : BetweenCalls c k) {B : Finset Int} (hk : k.Keeps B none) (w : Option Super) :
    k.Fits ((B, none), ⟨B, none, k.file.size, true, none, w⟩) :=
  ⟨hk,rfl,rfl,h.backed.nonneg,h.backed.below,h.backed.writes,h.backed.free,h.backed.clean,h.backed.hand,h.backed.dirty⟩

theorem Cache.Fits.betweenCalls {t : (Finset Int × Option Int) × SlotFacts} (h : k.Fits t) (hl : Lone c t.2) (hB : t.1.1.card ≤ 1) :
    BetweenCalls c k := by
  have hb := h.backed
  refine ⟨hl.shared,hl.size.trans hb.size,⟨t.1.1,h.keeps.forget,hB⟩,rfl,hb.nonneg,hb.below,hb.writes,hb.free,?_,?_,?_⟩
  · exact fun i hi h0 hw _ => hb.clean i hi h0 hw (Or.inl hl.counted)
  · intro b hb
    cases hb
  · intro D hD
    cases hD

theorem Cache.fits_initcntrl (hpos : 0 ≤ k.file.size) (hl : k.labelled < ZMXBLK) (w : Option Super) :
    k.initcntrl.Fits ((∅, none), ⟨∅, none, k.file.size, true, none, w⟩) := by
  have hneg : ∀ i, (k.initcntrl.slot i).inmem < 0 := fun _ => (by decide : ZNULL < 0)
  refine ⟨⟨.refl _,?_,?_,?_,?_,fun _ _ => le_rfl,?_,hl⟩,rfl,rfl,hpos,?_,fun _ _ => le_rfl,fun _ _ _ => rfl,?_,?_,?_⟩
  · exact fun _ _ hb => (by cases hb)
  · exact fun _ hb => (by cases hb)
  · exact fun i _ _ _ _ h0 => absurd (hneg i) (not_lt.2 h0)
  · exact fun _ hb => (by cases hb)
  · exact fun _ hb => (by cases hb)
  · exact fun i _ => (hneg i).trans_le hpos
  · exact fun i _ h0 => absurd (hneg i) (not_lt.2 h0)
  · exact fun _ hb => (by cases hb)
  · exact fun _ hb => (by cases hb)

theorem BetweenCalls.initcntrl (hs : c.shared = false) (hsize : c.super.sblkmx = k.file.size) (hpos : 0 ≤ k.file.size)
    (hl : k.labelled < ZMXBLK) : BetweenCalls c k.initcntrl :=
  (Cache.fits_initcntrl hpos hl none).betweenCalls ⟨hs,hsize,rfl,fun _ hp => by cases hp⟩ (Nat.zero_le 1)

variable {m : Prog.Machine Op Res Cache} (hm : Cache.Mirrored m)
include hm

theorem Cache.Fits.retraces {B : Finset Int} {t : SlotFacts} {P : α → Ctx → Finset Int → Prop} {Q : α → Ctx → SlotFacts → Prop}
    (h : k.Fits ((B, none), t)) (hb : Guarded True x c B P) (hx : Minds x c t Q) :
    ((x c).run m k).Retraces (fun o k => k.Parts o) Cache.Shows (fun o d => plain o d = none)
      k.Shows ((x c).run plain) fun r => ∃ t, r.2.Fits t ∧ P r.1.1 r.1.2 t.1.1 ∧ Q r.1.1 r.1.2 t.2 :=
  Prog.Guard.retraces hm (fun k => ⟨_,k.shows_view⟩) (Prog.Guard.both (hb none) hx) h

theorem BetweenCalls.retraces {Q : α → Ctx → SlotFacts → Prop} (w : Option Super) (hslots : 3 ≤ ZMXBLK)
    (h : BetweenCalls c k) (hw : ∀ p, w = some p → Told p c.super) (hmod : SlotSafe x)
    (hx : ∀ t, Lone c t → t.told = w → Minds x c t fun a c' t' => Lone c' t' ∧ Q a c' t') :
    ((x c).run m k).Retraces (fun o k => k.Parts o) Cache.Shows (fun o d => plain o d = none)
      k.Shows ((x c).run plain) fun r => BetweenCalls r.1.2 r.2 ∧
        ∃ t, r.2.Backed t ∧ (Lone r.1.2 t ∧ t.told = w) ∧ Q r.1.1 r.1.2 t := by
  obtain ⟨B,hk,hB⟩ := h.keeps
  have hspare : Spare True 2 B := fun _ => by omega
  have hlone : Lone c ⟨B,none,k.file.size,true,none,w⟩ := ⟨h.shared,h.size,rfl,hw⟩
  refine ((h.fits hk w).retraces hm (hmod c B h.shared hspare) (hx _ hlone rfl).told).mono ?_
  rintro ⟨⟨a,c'⟩,k'⟩ ⟨t,ht,⟨-,hfew⟩,⟨hl,hq⟩,htold⟩
  exact ⟨ht.betweenCalls hl ((Finset.card_le_card (hfew trivial)).trans hB),t.2,ht.backed,⟨hl,htold⟩,hq⟩

omit hm in
-- Every program answers through the cache as on the file alone, up to where the two part: what the cache shows
-- in the end is what the run on the file comes to, from a file the cache showed at the start.
theorem through_cache (hcap : 3 ≤ ZMXKEY) (hslots : 3 ≤ ZMXBLK) (env : Nat → Bool × Disk) (hx : Uses x)
    (h : BetweenCalls c k) :
    ((x c).run (Cache.shown env) k).Retraces (fun o k => k.Parts o) Cache.Shows (fun o d => plain o d = none)
      k.Shows ((x c).run plain) fun r => BetweenCalls r.1.2 r.2 :=
  (h.retraces (Cache.mirrors_shown env) (Q := fun _ _ _ => True) none hslots (fun _ hp => by cases hp) hx.slotSafe fun t ht hn =>
    (hx.heeds hcap c t ht hn).mono fun _ _ _ hl => ⟨hl.1,trivial⟩).mono fun _ hr => hr.1

end Programs

section Run

local instance throughBuild : Build := build32 100

-- Three slots, with nothing in them yet.
def Cache.clear (d : Disk) : Cache :=
  Cache.initcntrl { slot := fun _ => ⟨0, false, 0, Block.blank⟩, lru := [], marked := 0, labelled := 0, file := d, turn := 0 }

theorem betweenCalls_fresh : BetweenCalls St.fresh.ctx (Cache.clear St.fresh.disk) := .initcntrl rfl rfl (by decide) (by decide)

def keepAll : List Key → BT Unit
  | [] => pure ()
  | k :: ks => do
      let _ ← binsky k 7
      keepAll ks

-- The keys of the root from the next one on, as long as there are some.
def readAll : Nat → BT (List (Option (Key × Int)))
  | 0 => return []
  | n + 1 => do
      let r ← bnxtky
      if r.1 = 0 then
        let rs ← readAll n
        return r.2 :: rs
      else return []

def keepThenRead (ks : List Key) (n : Nat) : BT (List (Option (Key × Int))) := do
  keepAll ks
  let _ ← btpos ZSTART
  readAll n

theorem uses_keepAll (ks : List Key) : Uses (keepAll ks) := by
  induction ks with
  | nil => exact .pure ()
  | cons k ks ih => exact .bind (.binsky k 7) fun _ => ih

theorem uses_readAll (n : Nat) : Uses (readAll n) := by
  induction n with
  | zero => exact .pure []
  | succ n ih =>
      refine .bind .bnxtky fun r => ?_
      split
      · exact .bind ih fun _ => .pure _
      · exact .pure []

theorem uses_keepThenRead (ks : List Key) (n : Nat) : Uses (keepThenRead ks n) :=
  .bind (uses_keepAll ks) fun _ => .bind (.btpos ZSTART) fun _ => uses_readAll n

def keptKeys : List Key := (List.range 36).map fun i => [Fin.ofNat 256 (65 + i)]

attribute [local irreducible] keepThenRead

-- The keys fill a root and three leaves: with three slots one of the leaves is put out before the end.
theorem through_cache_fresh :
    ((keepThenRead keptKeys 40 St.fresh.ctx).run (Cache.shown fun _ => (true, St.fresh.disk))
      (Cache.clear St.fresh.disk)).Retraces (fun o k => k.Parts o) Cache.Shows (fun o d => plain o d = none)
        (Cache.clear St.fresh.disk).Shows ((keepThenRead keptKeys 40 St.fresh.ctx).run plain) (fun r => BetweenCalls r.1.2 r.2) ∧
      ∃ r, (keepThenRead keptKeys 40 St.fresh.ctx).run (Cache.shown fun _ => (true, St.fresh.disk))
        (Cache.clear St.fresh.disk) = .done r ∧ r.1.1.length = 36 ∧ (∀ i < ZMXBLK, (r.2.slot i).inmem ≠ 2) ∧
          (r.2.file.block 2).nkeys = 11 := by
  refine ⟨through_cache (by decide) (by decide) _ (uses_keepThenRead ..) betweenCalls_fresh,?_⟩
  have hrun : ((keepThenRead keptKeys 40 St.fresh.ctx).run (Cache.shown fun _ => (true, St.fresh.disk))
      (Cache.clear St.fresh.disk)).result.any (fun r => decide (r.1.1.length = 36 ∧
        (∀ i < ZMXBLK, (r.2.slot i).inmem ≠ 2) ∧ (r.2.file.block 2).nkeys = 11)) = true := by
    decide +kernel
  obtain ⟨r,hr,hall⟩ := (Option.any_eq_true _ _).1 hrun
  exact ⟨r,Prog.Outcome.result_eq_some.1 hr,of_decide_eq_true hall⟩

end Run

end Btlib
