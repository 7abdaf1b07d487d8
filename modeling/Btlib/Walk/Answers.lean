import Btlib.Walk.Runs

namespace Btlib

open Multiway Links

-- The moves of a walk through the keys of a root.
inductive Move where
  | next
  | prev
deriving DecidableEq, Repr

namespace Move

def dir : Move → Int
  | next => ZNEXT
  | prev => ZPREV

def answer [Build] : Move → BT (Int × Option Item)
  | next => bnxtky
  | prev => bprvky

-- The moves of a walk, up to the first that finds no key.
def answers [Build] : List Move → BT (List (Int × Option Item))
  | [] => return []
  | a :: as => do
      let r ← a.answer
      if r.1 = QNOKEY then return [r]
      else
        let rs ← answers as
        return r :: rs

-- What a move answers that has come to `o`.
def reply : Option (Item × Cursor Item) → Int × Option Item
  | none => (QNOKEY, none)
  | some y => (0, some y.1)

-- The same moves of a cursor in a list.
def along : Cursor Item → List Move → List (Int × Option Item)
  | _, [] => []
  | c, a :: as =>
      match follow a.dir c with
      | none => [(QNOKEY, none)]
      | some (x, c') => (0, some x) :: along c' as

end Move

variable [Build] {m : Nat} {s s' : St} {fs D os : List Int} {live : Finset (Int × Nat)} {ent : Int × Nat → DKey}
  {vals : KeyEnt → List Int} {t : KeyTree m} {l bs as : List KeyEnt} {root : Int} {o : Option (Cursor Item)}

-- A call whose body goes from the place `o` to what `o'` says.
theorem ends_called {fn : String} {body : BT (Option Item)} {o' : Option (Item × Cursor Item)}
    (h : Here l D os live ent vals root o s)
    (hbody : ∀ {m : Nat} (t : KeyTree m) (fs : List Int) (s : St), Shelf s t fs D os live ent vals → t.inorder = l →
      Open os s → (s.ctx.shared = true → 0 < s.ctx.lckcnt) → s.ctx.err.qerror = 0 → Place s t live ent vals o →
        (exec body s).Ends (Refused s.ctx.super.scroot) (Walks l D os live ent vals o' s)) :
    (exec (api fn (·, none) (withErr (locked fn none body))) s).Ends (Refused root) fun r => r.1 = Move.reply o' ∧
      Here l D os live ent vals root (o'.map Prod.snd) r.2 ∧ r.2.ctx.shared = s.ctx.shared := by
  obtain ⟨m,t,fs,hs,hin,ho,hp,rfl⟩ := h
  have ho0 : Open os s.clear := ho.withCtx rfl rfl rfl rfl
  have hlck : s.clear.entered.ctx.shared = true → 0 < s.clear.entered.ctx.lckcnt := fun hsh => by
    have hsh : s.clear.ctx.shared = true := hsh
    have := ho0.count hsh
    rw [entered_shared hsh]
    change 0 < s.clear.ctx.lckcnt + 1
    omega
  rw [exec_api hs.isopen, withErr, exec_bind]
  have hcall := hbody t fs s.clear.entered (hs.same rfl rfl rfl) hin ho0.entered hlck rfl (hp.withCtx rfl rfl rfl)
  refine Prog.Outcome.Ends.bind (ends_locked_open ho0 (hcall.mono (fun _ _ h => h) fun r hr => ⟨hr.stays,hr⟩)) ?_
  rintro ⟨a,s2⟩ ⟨s1,hst,⟨-,hval,⟨m',t',fs',h1,hin1,hp1⟩,herr⟩,hout,hopen,-⟩
  have hctx : s2.ctx.lf = s1.ctx.lf ∧ s2.ctx.stk = s1.ctx.stk ∧ s2.ctx.shared = s1.ctx.shared ∧
      s2.ctx.super.scroot = s1.ctx.super.scroot ∧ s2.ctx.err = s1.ctx.err := by
    rw [hout.ctx]
    exact ⟨rfl,rfl,rfl,rfl,rfl⟩
  obtain ⟨hlf,hstk,hshared,hroot,herr2⟩ := hctx
  simp only [exec_bind, exec_btgerr, Prog.Outcome.bind_done, exec_pure, Prog.Outcome.ends_done]
  refine ⟨?_,⟨m',t',fs',h1.out hout (ho0.entered.stays hst ho0.count),hin1,hopen,hp1.withCtx hlf hstk hshared,
    hroot.trans hst.root⟩,hshared.trans hst.shared⟩
  have herr : s2.ctx.err.qerror = if o'.isSome then 0 else QNOKEY := by
    rw [herr2]
    exact herr
  have hval : a = o'.map Prod.fst := hval
  rw [herr, hval]
  cases o' <;> rfl

omit [Build] in
theorem exec_next_end (h : s.ctx.err.qerror = 0) : exec (do bclrlf; bterr "BNXTKY" QNOKEY .none) s = .done ((), { s with
    ctx.lf := ⟨[],ZNULL,ZNULL,false,ZNULL⟩, ctx.err := ⟨"BNXTKY", QNOKEY, .none⟩ }) := by
  simp [bclrlf, h]

theorem Shelf.ends_next_body (hb : Sized) (h : Shelf s t fs D os live ent vals) (hf : t.inorder.length + 3 ≤ FUEL)
    (herr : s.ctx.err.qerror = 0) (hd : Departs s t ZNEXT bs as) :
    (exec (do
      let r ← bnxtkyLoop FUEL
      let lf := (← get).lf
      if lf.lfblk = ZNULL then
        bclrlf
        bterr "BNXTKY" QNOKEY .none
      pure r) s).Ends (Refused s.ctx.super.scroot)
        (Walks t.inorder D os live ent vals (follow ZNEXT ⟨items vals bs, none, items vals as⟩) s) := by
  rw [exec_bind]
  refine (h.ends_next hb hf hd).bind fun r hr => ?_
  refine hr.reached ⟨"BNXTKY", QNOKEY, .none⟩ h herr (fun y hy => follow_cur ZNEXT hy) (fun _ he => ?_) rfl
  exact ⟨⟨[],ZNULL,ZNULL,false,ZNULL⟩,exec_next_end he,Or.inr rfl⟩

theorem Shelf.ends_prev_body (hb : Sized) (h : Shelf s t fs D os live ent vals) (hf : t.inorder.length + 3 ≤ FUEL)
    (herr : s.ctx.err.qerror = 0) (hd : Departs s t ZPREV bs as) :
    (exec (do
      let r ← bprvkyLoop FUEL
      let lf := (← get).lf
      if lf.lfblk = ZNULL then bterr "BPRVKY" QNOKEY .none
      pure r) s).Ends (Refused s.ctx.super.scroot)
        (Walks t.inorder D os live ent vals (follow ZPREV ⟨items vals bs, none, items vals as⟩) s) := by
  rw [exec_bind]
  refine (h.ends_prev hb hf hd).bind fun r hr => ?_
  refine hr.reached ⟨"BPRVKY", QNOKEY, .none⟩ h herr (fun y hy => follow_cur ZPREV hy) (fun _ he => ?_) rfl
  exact ⟨r.2.ctx.lf,by simp [he],Or.inl rfl⟩

theorem Shelf.ends_lost (h : Shelf s t fs D os live ent vals) (hlost : Lost s) (err : Err) (lf : Lf) {x : BT Unit}
    {loop : BT (Option Item)} (hloop : exec loop s = .done (none, s)) (herr : err.qerror = QNOKEY)
    (hlf : lf = s.ctx.lf ∨ lf = ⟨[],ZNULL,ZNULL,false,ZNULL⟩)
    (hx : exec x s = .done ((), { s with ctx.lf := lf, ctx.err := err })) :
    (exec (do
      let r ← loop
      let lf := (← get).lf
      if lf.lfblk = ZNULL then x
      pure r) s).Ends (Refused s.ctx.super.scroot) (Walks t.inorder D os live ent vals none s) := by
  simp only [exec_bind, hloop, exec_get, Prog.Outcome.bind_done, exec_ite, hlost.blk, if_true, hx, exec_pure,
    Prog.Outcome.ends_done]
  refine ⟨(Remains.refl s).withCtx rfl rfl rfl rfl,rfl,⟨m,t,fs,h.same rfl rfl rfl,rfl,?_⟩,herr⟩
  rcases hlf with rfl | rfl
  · exact ⟨hlost.blk,hlost.exct,hlost.draddr⟩
  · exact ⟨rfl,rfl,rfl⟩

theorem ends_move (hb : Sized) (hcap : 3 ≤ ZMXKEY) (h : Here l D os live ent vals root o s)
    (hf : 2 * l.length + 3 ≤ FUEL) (a : Move) :
    (exec a.answer s).Ends (Refused root) fun r => r.1 = Move.reply (o.bind (follow a.dir)) ∧
      Here l D os live ent vals root ((o.bind (follow a.dir)).map Prod.snd) r.2 ∧ r.2.ctx.shared = s.ctx.shared := by
  obtain ⟨N,hN⟩ : ∃ N, FUEL = N + 1 := ⟨FUEL - 1,by omega⟩
  cases a with
  | next =>
      refine ends_called h fun t fs s hs hin ho hlck herr hp => ?_
      cases o with
      | none =>
          have hlost : Lost s := hp
          rw [exec_walk_lost hlost, ← hin]
          exact hs.ends_lost hlost ⟨"BNXTKY", QNOKEY, .none⟩ ⟨[],ZNULL,ZNULL,false,ZNULL⟩
            (by rw [hN]; exact exec_bnxtkyLoop_out hlost.blk) rfl (Or.inr rfl) (exec_next_end herr)
      | some c =>
          subst hin
          refine ends_walk hb hcap (Or.inl rfl) hs ho hf hlck herr hp fun t' fs' bs as s1 h1 hin1 herr1 hd => ?_
          rw [← hin1]
          exact h1.ends_next_body hb (by rw [hin1]; omega) herr1 hd
  | prev =>
      refine ends_called h fun t fs s hs hin ho hlck herr hp => ?_
      cases o with
      | none =>
          have hlost : Lost s := hp
          rw [exec_walk_lost hlost, ← hin]
          refine hs.ends_lost hlost ⟨"BPRVKY", QNOKEY, .none⟩ s.ctx.lf
            (by rw [hN]; exact exec_bprvkyLoop_out hlost.blk) rfl (Or.inl rfl) ?_
          simp [herr]
      | some c =>
          subst hin
          refine ends_walk hb hcap (Or.inr rfl) hs ho hf hlck herr hp fun t' fs' bs as s1 h1 hin1 herr1 hd => ?_
          rw [← hin1]
          exact h1.ends_prev_body hb (by rw [hin1]; omega) herr1 hd

end Btlib
