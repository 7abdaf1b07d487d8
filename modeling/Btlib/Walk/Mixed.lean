import Btlib.Dups.Runs
import Btlib.Walk.Lists

namespace Btlib

open Multiway Links

-- A call on the root of one handle: on a key by its name, or on the last found position.
inductive MixedCall where
  | named (c : DupCall)
  | pos (i : Int)
  | move (a : Move)
deriving DecidableEq, Repr

namespace MixedCall

inductive Reply where
  | named (r : Int × Option Int)
  | pos (code : Int)
  | move (r : Int × Option Item)
deriving DecidableEq, Repr

def answer [Build] : MixedCall → BT Reply
  | named c => do return .named (← c.answer)
  | pos i => do return .pos (← btpos i)
  | move a => do return .move (← a.answer)

def answers [Build] : List MixedCall → BT (List Reply)
  | [] => return []
  | c :: cs => do
      let r ← c.answer
      let rs ← answers cs
      return r :: rs

def values (dups : Bool) (μ : Key → List Int) : MixedCall → Key → List Int
  | named c => (c.ofRoot dups μ).2
  | _ => μ

-- The values of the keys after a run.
def valuesAfter (dups : Bool) (μ : Key → List Int) : List MixedCall → Key → List Int
  | [] => μ
  | c :: cs => valuesAfter dups (c.values dups μ) cs

def Sound [Build] : MixedCall → Prop
  | named c => c.Sound
  | _ => True

instance [Build] (c : MixedCall) : Decidable c.Sound := by
  cases c <;> unfold Sound <;> infer_instance

end MixedCall

section Calls

variable [Build] {n m : Nat} {s s' : St} {fs D os : List Int} {nd : Int → Nat} {live : Finset (Int × Nat)}
  {ent : Int × Nat → DKey} {vals : KeyEnt → List Int} {t : KeyTree m} {μ : Key → List Int} {keys : Nat} {o : Standing}

-- The last found position is before the first index of a block that has keys.
def BelowKeys (s : St) : Prop :=
  s.ctx.lf.lfblk ≠ ZNULL ∧ s.ctx.lf.lfpos = -1 ∧ (s.disk.block s.ctx.lf.lfblk).nkeys ≠ 0

instance (s : St) : Decidable (BelowKeys s) := inferInstanceAs (Decidable (_ ∧ _ ∧ _))

namespace MixedCall

-- What a call needs for the lists to tell what it does: a move forwards does not start before the first index of a block
-- that has keys.
def Meets (s : St) (os : List Int) (μ : Key → List Int) : MixedCall → Prop
  | named c => c.Meets s os μ
  | pos _ => True
  | move a => a = .next → ¬ BelowKeys s

-- Every call of the run has it.
def Met (os : List Int) (dups : Bool) : List MixedCall → St → (Key → List Int) → Prop
  | [], _, _ => True
  | c :: cs, s, μ => c.Meets s os μ ∧ ∀ r s', exec c.answer s = .done (r, s') → Met os dups cs s' (c.values dups μ)

end MixedCall

theorem Listed.same (h : Listed s t fs D os nd live ent μ) (hdisk : s'.disk = s.disk) (hsuper : s'.ctx.super = s.ctx.super) :
    Listed s' t fs D os nd live ent μ := by
  obtain ⟨ctx,disk⟩ := s'
  obtain rfl : disk = s.disk := hdisk
  exact h.withCtx hsuper

theorem Listed.stay (h : Listed s t fs D os nd live ent μ) (hw : Writable s) (hlen : t.inorder.length ≤ keys)
    (hdisk : s'.disk = s.disk) (hsuper : s'.ctx.super = s.ctx.super) (hopen : s'.ctx.isopen = s.ctx.isopen)
    (hshared : s'.ctx.shared = s.ctx.shared) (hp : Position s' t live ent (fun e => μ e.key) o) :
    Ensues s os keys μ o s' :=
  (h.same hdisk hsuper).ensues ⟨hopen.trans hw.isopen,hshared.trans hw.shared,by rw [hsuper]; exact hw.mode⟩
    ⟨by rw [hsuper],by rw [hdisk, hsuper]⟩ hlen hp

-- `btpos` to neither end: before the root block.
theorem Shelf.exec_btpos_other (h : Shelf s t fs D os live ent vals) (hs : s.ctx.shared = false) {i : Int} (h1 : i ≠ ZSTART)
    (h2 : i ≠ ZEND) : exec (btpos i) s = .done (0, s.atRoot ZNULL) ∧ ∃ o, Position (s.atRoot ZNULL) t live ent vals o := by
  refine ⟨?_,?_⟩
  · have hopen : Open os s.clear := (h.isOpen hs).withCtx rfl rfl rfl rfl
    have hown : (s.atRoot ZNULL).ctx.shared = false := hs
    rw [btpos, exec_api h.isopen, exec_bind, Btlib.exec_enter hopen, Prog.Outcome.bind_done]
    simp only [if_true]
    rw [exec_btposAt, if_neg h1, if_neg h2]
    change exec (do leave; btgerr) (s.atRoot ZNULL) = _
    simp only [leave, exec_bind, exec_get, Prog.Outcome.bind_done, exec_ite, hown, Bool.false_eq_true, if_false, exec_pure,
      exec_btgerr]
    rfl
  · obtain ⟨n,g,d,rfl,hfill,hid,-,-,-,hsz⟩ := h.root 0
    dsimp only at hfill
    subst hfill
    by_cases h0 : g.size = 0
    · obtain rfl := hsz h0
      exact ⟨.place _,Or.inl (stands_empty h0 hid.symm rfl rfl rfl).2⟩
    · refine ⟨.before,rfl,rfl,rfl,rfl,rfl,?_⟩
      have hnk := (holds_fill_iff.1 h.index.holds).1.nkeys
      change (s.disk.block s.ctx.super.scroot).nkeys ≠ 0
      rw [← hid, hnk]
      exact Int.natCast_ne_zero.2 h0

theorem Valued.ends_btpos (h : Valued s os μ keys) (hfuel : keys + 3 ≤ FUEL) (i : Int) :
    (exec (btpos i) s).Ends (Refused s.ctx.super.scroot) fun r => r.1 = 0 ∧ ∃ o, Ensues s os keys μ o r.2 := by
  obtain ⟨hw,m,t,fs,D,nd,live,ent,hl,hlen⟩ := h
  have hs := hl.shelf hw.isopen
  have hopen := hs.isOpen hw.shared
  have hne : ¬ s.ctx.shared = true := by rw [hw.shared]; exact Bool.false_ne_true
  have hpos : ∀ c s', Positioned s s' t live ent (fun e => μ e.key) c → ∃ o, Ensues s os keys μ o s' := fun c s' hp =>
    ⟨.place c,hl.stay hw hlen hp.disk hp.super hp.isopen hp.shared (Or.inl hp.stands)⟩
  by_cases h1 : i = ZSTART
  · rw [h1]
    exact (Btlib.ends_first hs hopen (by omega) fun hc => absurd hc hne).mono (fun _ _ h => h) fun r hr =>
      ⟨hr.1,hpos _ _ (hr.2.2.2 hw.shared)⟩
  by_cases h2 : i = ZEND
  · rw [h2]
    exact (Btlib.ends_last hs hopen (by omega) fun hc => absurd hc hne).mono (fun _ _ h => h) fun r hr =>
      ⟨hr.1,hpos _ _ (hr.2.2.2 hw.shared)⟩
  · obtain ⟨hex,o,hp⟩ := hs.exec_btpos_other hw.shared h1 h2
    rw [hex, Prog.Outcome.ends_done]
    exact ⟨rfl,o,hl.stay hw hlen rfl rfl rfl rfl hp⟩

-- The last found position is an index of the keys of a block of the tree, and `k` is the key there.
def OnIndex (s : St) (k : Key) : Prop :=
  ∃ (m : Nat) (t : KeyTree m) (fs os : List Int), Index s t fs os ∧ s.ctx.lf.lfblk ∈ t.ids ∧ 0 ≤ s.ctx.lf.lfpos ∧
    s.ctx.lf.lfpos < (s.disk.block s.ctx.lf.lfblk).nkeys ∧ ((s.disk.block s.ctx.lf.lfblk).keyblk s.ctx.lf.lfpos).key = k

theorem Shelf.onIndex (h : Shelf s t fs D os live ent vals) {c : Cursor Item} (hs : Stands s t live ent vals c) {k : Key}
    {v : Int} (hc : c.cur = some (k, v)) : OnIndex s k ∧ ∃ e ∈ t.inorder, e.key = k ∧ v ∈ vals e := by
  rcases hs with ⟨f,p,hg⟩ | ⟨n,f,d,p,e,r,after,ps,lvs,w,rvs,hv⟩
  · rw [hg.cursor] at hc
    cases hc
  · rw [hv.cursor] at hc
    obtain ⟨rfl,rfl⟩ := Prod.mk.inj (Option.some.inj hc)
    obtain ⟨hmem,-,hent⟩ := h.entry hv.plug hv.onKey.ents
    have hblk : s.ctx.lf.lfblk = f.id := hv.onKey.blk
    have hpos : s.ctx.lf.lfpos = f.le.length := hv.onKey.pos
    have hnk : (s.disk.block f.id).nkeys = f.size := by
      have hh := h.index.holds
      rw [← hv.plug] at hh
      exact ((holds_plug_iff (Path.step f p) d).1 hh).1.1.nkeys
    refine ⟨⟨m,t,fs,D ++ os,h.index,hblk ▸ hmem,?_,?_,?_⟩,e,h.mem hv.plug hv.right,rfl,?_⟩
    · rw [hpos]
      exact Int.natCast_nonneg _
    · rw [hblk, hpos, hnk, Frame.size, hv.onKey.ents, List.length_cons]
      omega
    · rw [hblk, hpos, hent]
    · rw [hv.split]
      simp

-- A move answers what the root has at an index of one of its blocks.
def Read (μ : Key → List Int) (r : Int × Option Item) (s : St) : Prop :=
  r.1 = 0 → ∃ k v, r.2 = some (k, v) ∧ v ∈ μ k ∧ OnIndex s k ∧ Shown s μ

omit [Build] in
theorem Standing.go_place {a : Move} {x : Int × Option Item} {o' : Standing} (hgo : o.go a = some (x, o')) (h0 : x.1 = 0) :
    ∃ k v c, x.2 = some (k, v) ∧ o' = .place c ∧ c.cur = some (k, v) := by
  unfold Standing.go at hgo
  split at hgo
  · rename_i c hcur
    obtain ⟨rfl,rfl⟩ := Prod.mk.inj (Option.some.inj hgo)
    cases hf : follow a.dir c with
    | none =>
        rw [hf] at h0
        exact absurd h0 (by decide)
    | some y => exact ⟨y.1.1,y.1.2,y.2,rfl,rfl,follow_cur a.dir hf⟩
  · split at hgo
    · obtain ⟨rfl,rfl⟩ := Prod.mk.inj (Option.some.inj hgo)
      exact absurd h0 (by decide)
    · cases hgo
    · obtain ⟨rfl,rfl⟩ := Prod.mk.inj (Option.some.inj hgo)
      exact absurd h0 (by decide)

omit [Build] in
theorem Standing.go_isSome (o : Standing) (a : Move) (h : o = .before → a ≠ .next) : (o.go a).isSome := by
  cases o with
  | place c => rfl
  | whole b vs r => rfl
  | out => rfl
  | freed => rfl
  | before =>
      cases a with
      | next => exact absurd rfl (h rfl)
      | prev => rfl

theorem Selects.ends_move (hb : Sized) (h : Selects s os μ keys o) (hfuel : keys + 3 ≤ FUEL) (a : Move)
    (hmeets : a = .next → ¬ BelowKeys s) : (exec a.answer s).Ends (Refused s.ctx.super.scroot) fun r =>
      Read μ r.1 r.2 ∧ ∃ o, Ensues s os keys μ o r.2 := by
  obtain ⟨hw,m,t,fs,D,nd,live,ent,hl,hlen,hp⟩ := h
  have hs := hl.shelf hw.isopen
  have hsome : (o.go a).isSome := o.go_isSome a fun ho ha => by
    subst ho
    have hbelow : BeforeRoot s := hp
    refine hmeets ha ⟨?_,hbelow.pos,?_⟩
    · rw [hbelow.blk]
      exact hs.has_root.ne_null
    · rw [hbelow.blk]
      exact hbelow.keys
  obtain ⟨⟨x,o'⟩,hgo⟩ := Option.isSome_iff_exists.1 hsome
  refine (ends_own_move hb hs hw.shared (by omega) hp a hgo).mono (fun _ _ h => h) fun r hr => ?_
  obtain ⟨rfl,hwent⟩ := hr
  have hctx := hwent.ctx
  have hsuper : r.2.ctx.super = s.ctx.super := by rw [hctx]
  have hopen : r.2.ctx.isopen = s.ctx.isopen := by rw [hctx]
  have hl' := hl.same hwent.disk hsuper
  refine ⟨fun h0 => ?_,o',hl.stay hw hlen hwent.disk hsuper hopen (by rw [hctx]) hwent.position⟩
  obtain ⟨k,v,c,hx,rfl,hcur⟩ := Standing.go_place hgo h0
  have hst : Stands r.2 t live ent (fun e => μ e.key) c := by
    rcases hwent.position with hst | ⟨n,f,d,p,e,r,after,us,ws,lvs,rvs,q,w,hdel⟩
    · exact hst
    · rw [hdel.cursor] at hcur
      cases hcur
  obtain ⟨hindex,e,-,rfl,hv⟩ := (hl'.shelf (hopen.trans hw.isopen)).onIndex hst hcur
  exact ⟨e.key,v,hx,hv,hindex,hl'.shown hb⟩

namespace MixedCall

-- What every call does: the root has the values that the lists say, and a handle is somewhere in it again.
theorem ends_answer (hb : Sized) (hcap : 8 ≤ ZMXKEY) (h : Selects s os μ keys o) (hfuel : 2 * keys + 3 ≤ FUEL)
    (c : MixedCall) (hc : c.Sound) (hmeets : c.Meets s os μ) :
    (exec c.answer s).Ends (Refused s.ctx.super.scroot) fun r =>
      ∃ o, Ensues s os (keys + 1) (c.values (DupCall.dupsOf s) μ) o r.2 := by
  cases c with
  | named c =>
      simp only [answer, exec_bind, exec_pure]
      exact (DupCall.ends_answer hb hcap h.valued hfuel c hc hmeets).bind fun r hr => hr.2
  | pos i =>
      simp only [answer, exec_bind, exec_pure]
      exact (h.valued.ends_btpos (by omega) i).bind fun r ⟨_,o,ho⟩ => ⟨o,ho.mono (Nat.le_succ keys)⟩
  | move a =>
      simp only [answer, exec_bind, exec_pure]
      exact (h.ends_move hb (by omega) a hmeets).bind fun r ⟨_,o,ho⟩ => ⟨o,ho.mono (Nat.le_succ keys)⟩

theorem dupsOf_eq (h : Ensues s os keys μ o s') : DupCall.dupsOf s' = DupCall.dupsOf s := by
  rw [DupCall.dupsOf, DupCall.dupsOf, h.same.misc]

theorem met_append {dups : Bool} (cs cs' : List MixedCall) (h : Met os dups (cs ++ cs') s μ) : Met os dups cs s μ ∧
    ∀ r s', exec (answers cs) s = .done (r, s') → Met os dups cs' s' (valuesAfter dups μ cs) := by
  induction cs generalizing s μ with
  | nil =>
      refine ⟨trivial,fun r s' hrun => ?_⟩
      obtain ⟨-,rfl⟩ := Prod.mk.inj (Prog.Outcome.done.inj hrun)
      exact h
  | cons c cs ih =>
      obtain ⟨hc,hcs⟩ := h
      refine ⟨⟨hc,fun r s' hrun => (ih (hcs r s' hrun)).1⟩,fun r s' hrun => ?_⟩
      rw [answers, exec_bind] at hrun
      cases h1 : exec c.answer s with
      | done x =>
          rw [h1, Prog.Outcome.bind_done, exec_bind] at hrun
          cases h2 : exec (answers cs) x.2 with
          | done xs =>
              rw [h2] at hrun
              obtain ⟨-,rfl⟩ := Prod.mk.inj (Prog.Outcome.done.inj hrun)
              exact (ih (hcs x.1 x.2 h1)).2 xs.1 xs.2 h2
          | stuck o s => rw [h2] at hrun; cases hrun
          | hung => rw [h2] at hrun; cases hrun
      | stuck o s => rw [h1] at hrun; cases hrun
      | hung => rw [h1] at hrun; cases hrun

-- What a run leaves, as long as every call of it has what it needs.
theorem ends_answers (hb : Sized) (hcap : 8 ≤ ZMXKEY) (h : Selects s os μ keys o) (cs : List MixedCall)
    (hcs : ∀ c ∈ cs, c.Sound) (hfuel : 2 * (keys + cs.length) + 3 ≤ FUEL) (hmet : Met os (DupCall.dupsOf s) cs s μ) :
    (exec (answers cs) s).Ends (Refused s.ctx.super.scroot) fun r =>
      ∃ o, Ensues s os (keys + cs.length) (valuesAfter (DupCall.dupsOf s) μ cs) o r.2 := by
  -- on the calls: what one of them leaves is what the rest can start from
  induction cs generalizing s μ keys o with
  | nil => exact ⟨o,⟨⟨rfl,rfl⟩,h⟩⟩
  | cons c cs ih =>
      simp only [List.length_cons] at hfuel
      obtain ⟨hmeets,hrest⟩ := hmet
      simp only [answers, exec_bind, exec_pure]
      refine (ends_answer hb hcap h (by omega) c (hcs c List.mem_cons_self) hmeets).self.bind ?_
      rintro ⟨r,s1⟩ ⟨hrun,o,hl⟩
      have hdups := dupsOf_eq hl
      have htail := ih hl.selects (fun c hc => hcs c (List.mem_cons_of_mem _ hc)) (by omega) (by rw [hdups]; exact hrest r s1 hrun)
      rw [hl.same.root, hdups] at htail
      refine htail.bind fun r' hr' => ?_
      obtain ⟨o',ho'⟩ := hr'
      rw [List.length_cons, ← Nat.add_assoc, Nat.add_right_comm]
      exact ⟨o',hl.same.trans ho'.same,ho'.selects⟩

end MixedCall

-- Every move in every run of named calls, `btpos` and moves answers an entry that the root has then, and reads it at an
-- index of a block of the tree, as long as no move forwards starts before the first index of a block that has keys.
theorem moves_read_entries (hb : Sized) (hcap : 8 ≤ ZMXKEY) (h : Selects s os μ keys o) (cs : List MixedCall) (a : Move)
    (hcs : ∀ c ∈ cs, c.Sound) (hfuel : 2 * (keys + cs.length) + 3 ≤ FUEL)
    (hmet : MixedCall.Met os (DupCall.dupsOf s) (cs ++ [.move a]) s μ) :
    (exec (MixedCall.answers cs) s).Ends (Refused s.ctx.super.scroot) fun r =>
      (exec a.answer r.2).Ends (Refused s.ctx.super.scroot) fun r' =>
        Read (MixedCall.valuesAfter (DupCall.dupsOf s) μ cs) r'.1 r'.2 := by
  obtain ⟨hrun,hlast⟩ := MixedCall.met_append cs [.move a] hmet
  refine (MixedCall.ends_answers hb hcap h cs hcs hfuel hrun).self.mono (fun _ _ h => h) ?_
  rintro ⟨r,s1⟩ ⟨hdone,o',ho'⟩
  have hmove := ho'.selects.ends_move hb (by omega) a (hlast r s1 hdone).1
  rw [ho'.same.root] at hmove
  exact hmove.mono (fun _ _ h => h) fun r' hr' => hr'.1

section Few

omit [Build] in
theorem Few.values (h : Few (fun k => (μ k).head?) keys) (dups : Bool) (c : MixedCall) :
    Few (fun k => (c.values dups μ k).head?) (keys + 1) := by
  have hsame := h.mono (Nat.le_succ keys)
  cases c with
  | named c =>
      cases c with
      | insert k v =>
          simp only [MixedCall.values, DupCall.ofRoot]
          split
          · exact hsame
          · exact h.ofLists (.insert k v)
      | find k => exact h.ofLists (.find k)
      | update k v => exact h.ofLists (.update k v)
      | delete k => exact h.ofLists (.delete k)
  | pos i => exact hsame
  | move a => exact hsame

omit [Build] in
theorem Few.valuesAfter (h : Few (fun k => (μ k).head?) keys) (dups : Bool) (cs : List MixedCall) :
    Few (fun k => (MixedCall.valuesAfter dups μ cs k).head?) (keys + cs.length) := by
  induction cs generalizing μ keys with
  | nil => exact h
  | cons c cs ih => exact (ih (h.values dups c)).mono (by rw [List.length_cons]; omega)

def MixedCall.keyLength : MixedCall → Nat
  | .named c => c.key.length
  | _ => 0

-- Whether the moves forwards of a run start elsewhere than before the first index of a block that has keys.
def MixedCall.starts : List MixedCall → St → Bool
  | [], _ => true
  | c :: cs, s => decide (c = .move .next → ¬ BelowKeys s) && match (exec c.answer s).result with
    | some r => starts cs r.2
    | none => true

theorem MixedCall.met_of_starts (cs : List MixedCall) {dups : Bool} (hfew : Few (fun k => (μ k).head?) keys)
    (hlen : keys + cs.length ≤ 2 * ZMXKEY) (hshort : ∀ c ∈ cs, c.keyLength ≤ 31)
    (hstarts : MixedCall.starts cs s = true) : MixedCall.Met os dups cs s μ := by
  induction cs generalizing s μ keys with
  | nil => trivial
  | cons c cs ih =>
      rw [List.length_cons] at hlen
      rw [MixedCall.starts, Bool.and_eq_true, decide_eq_true_eq] at hstarts
      obtain ⟨hc,hcs⟩ := hstarts
      refine ⟨?_,fun r s' hrun => ih (hfew.values dups c) (by omega) (fun c hc => hshort c (List.mem_cons_of_mem _ hc)) ?_⟩
      · cases c with
        | named c =>
            cases c with
            | delete k =>
                exact fun _ => ⟨hshort (.named (.delete k)) List.mem_cons_self,fun m t fs D nd live ent hl => hl.roomFor (hfew.mono (by omega)) k⟩
            | insert k v => trivial
            | find k => trivial
            | update k v => trivial
        | pos i => trivial
        | move a => exact fun ha => hc (ha ▸ rfl)
      · rw [Prog.Outcome.result_eq_some.2 hrun] at hcs
        exact hcs

end Few

end Calls

section Run

attribute [local instance] dupsBuild

-- The empty root of a new file; in front of the keys of a block are its info words, here the number of its root and no
-- block of duplicates.
def St.freshWords : St :=
  { St.fresh with disk := ⟨fun b => { Block.fresh ZROOT b with misc := 1, keyblk := fun _ => ⟨[],1,ZNULL⟩ }, 2⟩ }

theorem selects_freshWords : Selects St.freshWords [0] (fun _ => []) 0 .out := by
  obtain ⟨hw,m,t,fs,D,nd,live,ent,hl,hlen⟩ := valued_fresh 1 fun _ => ⟨[],1,ZNULL⟩
  exact ⟨hw,m,t,fs,D,nd,live,ent,hl,hlen,rfl,rfl,rfl⟩

attribute [local irreducible] exec

-- Puts, deletes and moves in turn, with a key of two values and a split of the root in between.
def mixedTurns : List MixedCall :=
  [.named (.insert [65] 7), .named (.insert [66] 5), .named (.insert [65] 8), .pos ZSTART, .move .next,
    .named (.insert [64] 3), .move .next, .named (.delete [65]), .move .next, .pos ZEND, .move .prev] ++
    (List.range 21).map (fun i => .named (.insert [Fin.ofNat 256 (67 + i)] i)) ++
    [.move .prev, .named (.delete [64]), .move .next]

theorem moves_read_entries_mixedTurns : ∃ r r', exec (MixedCall.answers mixedTurns) St.freshWords = .done r ∧
    exec Move.next.answer r.2 = .done r' ∧ r'.1 = (0, some ([66], 5)) ∧
      Read (MixedCall.valuesAfter true (fun _ => []) mixedTurns) r'.1 r'.2 := by
  have hmet : MixedCall.Met [0] true (mixedTurns ++ [.move .next]) St.freshWords fun _ => [] :=
    MixedCall.met_of_starts _ few_none (by decide +kernel) (by decide +kernel) (by decide +kernel)
  have h := moves_read_entries sized_dups (by decide) selects_freshWords mixedTurns .next (by decide +kernel)
    (by decide +kernel) hmet
  have hrun : ((exec (MixedCall.answers mixedTurns) St.freshWords).result.bind fun r =>
      (exec Move.next.answer r.2).result.map Prod.fst) = some (0, some ([66], 5)) := by
    decide +kernel
  obtain ⟨r,hr,hrun⟩ := Option.bind_eq_some_iff.1 hrun
  obtain ⟨r',hr',hval⟩ := Option.map_eq_some_iff.1 hrun
  have hr := Prog.Outcome.result_eq_some.1 hr
  have hr' := Prog.Outcome.result_eq_some.1 hr'
  rw [hr, Prog.Outcome.ends_done, hr', Prog.Outcome.ends_done] at h
  exact ⟨r,r',hr,hr',hval,h⟩

-- After the first key of a root has been put in, a move forwards reads the info words as an entry.
theorem moves_read_words : Selects St.freshWords [0] (fun _ => []) 0 .out ∧ ∃ r,
    exec (do
      let _ ← MixedCall.answers [.named (.insert [65] 7)]
      Move.next.answer) St.freshWords = .done r ∧ r.1 = (0, some ([], 1)) ∧ r.2.ctx.lf.lfpos = -1 ∧
        ¬ Read (MixedCall.valuesAfter true (fun _ => []) [.named (.insert [65] 7)]) r.1 r.2 := by
  have hrun : ((exec (do
      let _ ← MixedCall.answers [.named (.insert [65] 7)]
      Move.next.answer) St.freshWords).result.map fun r => (r.1, r.2.ctx.lf.lfpos)) = some ((0, some ([], 1)), -1) := by
    decide +kernel
  obtain ⟨r,hr,hval⟩ := Option.map_eq_some_iff.1 hrun
  obtain ⟨hr1,hpos⟩ := Prod.mk.inj hval
  refine ⟨selects_freshWords,r,Prog.Outcome.result_eq_some.1 hr,hr1,hpos,fun hread => ?_⟩
  obtain ⟨k,v,-,-,⟨m,t,fs,os,-,-,hlow,-⟩,-⟩ := hread (by rw [hr1])
  rw [hpos] at hlow
  exact absurd hlow (by decide)

end Run

end Btlib
