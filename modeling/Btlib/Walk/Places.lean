import Btlib.Walk.Pos

namespace Btlib

open Multiway Links

-- Where the last found position of a handle of its own is: outside of the index; at a place in the list of all entries;
-- at the entry of a key with the values `vs`, none of them selected; at a deleted duplicate whose block is free; before
-- the first index of the root block.
inductive Standing where
  | out
  | place (c : Cursor Item)
  | whole (before vs after : List Item)
  | freed
  | before

namespace Standing

def arrive : Option (Item × Cursor Item) → Standing
  | none => out
  | some y => place y.2

-- The place that a move in the direction `dir` starts from.
def cursor (dir : Int) : Standing → Option (Cursor Item)
  | place c => some c
  | whole b vs r => some (if dir = ZNEXT then ⟨b, none, vs ++ r⟩ else ⟨b ++ vs, none, r⟩)
  | _ => none

-- What a move answers, and where it comes to; a move forwards from before the root block is left out.
def go (a : Move) (o : Standing) : Option ((Int × Option Item) × Standing) :=
  match o.cursor a.dir with
  | some c => some (Move.reply (follow a.dir c), arrive (follow a.dir c))
  | none =>
      match o, a with
      | freed, _ => some ((QNOTDUP, none), freed)
      | before, .next => none
      | _, _ => some ((QNOKEY, none), out)

end Standing

variable [Build] {n m : Nat} {s s' : St} {fs D os : List Int} {live : Finset (Int × Nat)}
  {ent : Int × Nat → DKey} {vals : KeyEnt → List Int} {t : KeyTree m} {e : KeyEnt} {r after : List KeyEnt} {dir v w : Int}
  {c : Cursor Item} {ps us ws : List (Int × Nat)} {q : Int × Nat} {lvs rvs : List Int} {o : Standing} {d : DKey}

-- The last found position is that of the entry of a key, with its duplicates at `ps`.
structure AtEntry (s : St) (t : KeyTree m) (live : Finset (Int × Nat)) (ent : Int × Nat → DKey) (vals : KeyEnt → List Int)
    (f : KeyFrame n) (d : KeyTree n) (p : KeyPath (n + 1) m) (e : KeyEnt) (r after : List KeyEnt)
    (ps : List (Int × Nat)) : Prop where
  plug : p.plug (f.fill d) = t
  blk : s.ctx.lf.lfblk = f.id
  pos : s.ctx.lf.lfpos = f.le.length
  stack : s.ctx.stk = down p
  ents : f.re = e :: r
  lfkey : s.ctx.lf.lfkey = e.key
  right : (Path.step f p).right = e :: after
  chained : Chained live ent e ps (vals e)

-- None of the duplicates is selected.
structure OnWhole (s : St) (t : KeyTree m) (live : Finset (Int × Nat)) (ent : Int × Nat → DKey) (vals : KeyEnt → List Int)
    (f : KeyFrame n) (d : KeyTree n) (p : KeyPath (n + 1) m) (e : KeyEnt) (r after : List KeyEnt) (ps : List (Int × Nat)) :
    Prop extends AtEntry s t live ent vals f d p e r after ps where
  dups : ps ≠ []
  exct : s.ctx.lf.lfexct = true
  draddr : s.ctx.lf.draddr = ZNULL

-- The one that is selected has been deleted; its links are those to the two beside it.
structure OnDeleted (s : St) (t : KeyTree m) (c : Cursor Item) (live : Finset (Int × Nat)) (ent : Int × Nat → DKey)
    (vals : KeyEnt → List Int) (f : KeyFrame n) (d : KeyTree n) (p : KeyPath (n + 1) m) (e : KeyEnt)
    (r after : List KeyEnt) (us ws : List (Int × Nat)) (lvs rvs : List Int) (q : Int × Nat) (v : Int) : Prop
    extends AtEntry s t live ent vals f d p e r after (us ++ ws) where
  split : vals e = lvs ++ rvs
  length : us.length = lvs.length
  rest : us ++ ws ≠ []
  exct : s.ctx.lf.lfexct = false
  draddr : s.ctx.lf.draddr = addr q
  stale : Stale s q ⟨e.key,true,v,front addr ZNULL ws,back addr ZNULL us⟩ False
  cursor : c = ⟨items vals ((Path.step f p).left ++ d.inorder) ++ lvs.map (e.key, ·), none,
    rvs.map (e.key, ·) ++ items vals after⟩

-- And the block it was in is free.
structure OnFreed (s : St) (q : Int × Nat) (d : DKey) : Prop where
  exct : s.ctx.lf.lfexct = false
  draddr : s.ctx.lf.draddr = addr q
  stale : Stale s q d True

-- The last found position is the index -1 of the root block, and the block has keys.
structure BeforeRoot (s : St) : Prop where
  blk : s.ctx.lf.lfblk = s.ctx.super.scroot
  pos : s.ctx.lf.lfpos = ZNULL
  exct : s.ctx.lf.lfexct = false
  draddr : s.ctx.lf.draddr = ZNULL
  stack : s.ctx.stk = [ZNULL, ZNULL]
  keys : (s.disk.block s.ctx.super.scroot).nkeys ≠ 0

def Position (s : St) (t : KeyTree m) (live : Finset (Int × Nat)) (ent : Int × Nat → DKey) (vals : KeyEnt → List Int) :
    Standing → Prop
  | .out => Lost s
  | .place c => Stands s t live ent vals c ∨ ∃ (n : Nat) (f : KeyFrame n) (d : KeyTree n) (p : KeyPath (n + 1) m)
      (e : KeyEnt) (r after : List KeyEnt) (us ws : List (Int × Nat)) (lvs rvs : List Int) (q : Int × Nat) (v : Int),
      OnDeleted s t c live ent vals f d p e r after us ws lvs rvs q v
  | .whole b vs a => ∃ (n : Nat) (f : KeyFrame n) (d : KeyTree n) (p : KeyPath (n + 1) m) (e : KeyEnt)
      (r after : List KeyEnt) (ps : List (Int × Nat)), OnWhole s t live ent vals f d p e r after ps ∧
        b = items vals ((Path.step f p).left ++ d.inorder) ∧ vs = (vals e).map (e.key, ·) ∧ a = items vals after
  | .freed => ∃ q d, OnFreed s q d
  | .before => BeforeRoot s

section Reads

theorem Stale.addr_ne_null {gone : Prop} (h : Stale s q d gone) : addr q ≠ ZNULL := by
  have hblk := Int.mul_pos h.pos (Int.natCast_pos.2 ZBLKSZ_pos)
  change addr q ≠ -1
  rw [addr]
  omega

theorem Stale.cnvdraddr_addr {gone : Prop} (h : Stale s q d gone) :
    cnvdraddr (addr q) = (q.1, ((q.2 * entSz : Nat) : Int)) := cnvdraddr_add h.pos.le (Int.natCast_nonneg _) h.low

theorem Stale.exec_read (hb : Sized) (h : Stale s q d False) : exec (getdkey (addr q)) s = .done (some d, s) := by
  rcases h.left with ⟨hno,-⟩ | ⟨-,htype,hent,hfits⟩
  · exact absurd hno not_false
  · exact exec_getdkey hb h.has h.pos (Int.natCast_nonneg _) h.low htype hent hfits

theorem Stale.exec_freed (h : Stale s q d True) (herr : s.ctx.err.qerror = 0) :
    exec (getdkey (addr q)) s = .done (none, { s with ctx.err := ⟨"GETDKEY", QNOTDUP, .num (addr q)⟩ }) := by
  have htype : (s.disk.block q.1).btype ≠ ZDUP := by
    rcases h.left with ⟨-,htype⟩ | ⟨hno,-⟩
    · exact htype
    · exact absurd trivial hno
  simp only [getdkey, exec_bind, h.cnvdraddr_addr, exec_bgtinf h.has, Prog.Outcome.bind_done, Block.getInf_ZBTYPE, ne_eq, htype,
    not_false_eq_true, exec_ite, if_true]
  rw [exec_bterr s _ _ _ (by decide) (by decide)]
  simp only [herr, if_true, Prog.Outcome.bind_done, exec_pure]

end Reads

namespace AtEntry

variable {f : KeyFrame n} {d : KeyTree n} {p : KeyPath (n + 1) m}

-- With `lfexct` set, and the duplicate address where the caller says.
theorem onKey (h : AtEntry s t live ent vals f d p e r after ps) (lf : Lf) (hblk : lf.lfblk = s.ctx.lf.lfblk)
    (hpos : lf.lfpos = s.ctx.lf.lfpos) (hx : lf.lfexct = true) : OnKey { s with ctx.lf := lf } f p e r :=
  ⟨hblk.trans h.blk,hpos.trans h.pos,h.stack,hx,h.ents⟩

theorem blk_ne_null (h : AtEntry s t live ent vals f d p e r after ps) (hs : Shelf s t fs D os live ent vals) :
    s.ctx.lf.lfblk ≠ ZNULL := by
  rw [h.blk]
  exact (hs.index.has (hs.entry h.plug h.ents).1).ne_null

theorem cut (h : AtEntry s t live ent vals f d p e r after ps) (hs : Shelf s t fs D os live ent vals)
    {bs as : List KeyEnt} (hcut : if dir = ZNEXT then bs = (Path.step f p).left ++ d.inorder ++ [e] ∧ as = after
      else bs = (Path.step f p).left ++ d.inorder ∧ as = e :: after) : CutAt dir s.ctx.lf.lfkey bs as := by
  rw [h.lfkey]
  refine cutAt_key ?_ hcut
  rw [← inorder_behind h.right, h.plug]
  exact hs.sorted

-- `btduppos` has found the duplicate at `q`.
theorem along_dup (h : AtEntry s t live ent vals f d p e r after ps) (hs : Shelf s t fs D os live ent vals)
    (us ws : List (Int × Nat)) (q : Int × Nat) (lvs rvs : List Int) (w : Int) (hsplit : vals e = lvs ++ w :: rvs)
    (hps : ps = us ++ q :: ws) (hlen : us.length = lvs.length)
    (hstep : follow dir c = some ((e.key, w),
      ⟨items vals ((Path.step f p).left ++ d.inorder) ++ lvs.map (e.key, ·), some (e.key, w),
        rvs.map (e.key, ·) ++ items vals after⟩))
    (hex : exec (btduppos dir 0) s =
      .done ((0, w), { s with ctx.lf := { s.ctx.lf with draddr := addr q, lfexct := true } })) :
    Along s t live ent vals dir c := by
  refine .dup (e.key, w) _ _ hstep hex ?_ ⟨rfl,rfl⟩ (Or.inr ⟨n,f,d,p,e,r,after,ps,lvs,w,rvs,h.plug,h.onKey _ rfl rfl rfl,
    h.lfkey,h.right,h.chained,hsplit,Or.inr ⟨us,q,ws,hps,hlen,rfl⟩,rfl⟩)
  change keycpy s.ctx.lf.lfkey = e.key
  rw [h.lfkey]
  exact hs.copies e (hs.mem h.plug h.right)

-- It has come to the end of the duplicates.
theorem along_move (h : AtEntry s t live ent vals f d p e r after ps) (hs : Shelf s t fs D os live ent vals)
    (hdir : dir = ZNEXT ∨ dir = ZPREV) (hc : follow dir c = follow dir (if dir = ZNEXT then
      ⟨items vals ((Path.step f p).left ++ d.inorder ++ [e]), none, items vals after⟩
      else ⟨items vals ((Path.step f p).left ++ d.inorder), none, items vals (e :: after)⟩))
    (hex : exec (btduppos dir 0) s =
      .done ((ZNULL, v), { s with ctx.lf := { s.ctx.lf with draddr := ZNULL, lfexct := true } })) :
    Along s t live ent vals dir c := by
  have hon := h.onKey { s.ctx.lf with draddr := ZNULL, lfexct := true } rfl rfl rfl
  rcases hdir with rfl | rfl
  · rw [if_pos rfl] at hc
    refine .move _ after v _ hc hex ⟨rfl,rfl⟩ rfl (h.blk_ne_null hs) (Or.inr ⟨n,f,d,p,e,r,h.plug,hon,?_⟩) fun _ =>
      h.cut hs ?_
    · rw [if_pos rfl]
      exact ⟨rfl,h.right⟩
    · rw [if_pos rfl]
      exact ⟨rfl,rfl⟩
  · rw [if_neg (by decide)] at hc
    refine .move _ (e :: after) v _ hc hex ⟨rfl,rfl⟩ rfl (h.blk_ne_null hs) (Or.inr ⟨n,f,d,p,e,r,h.plug,hon,?_⟩) fun _ =>
      h.cut hs ?_
    · rw [if_neg (by decide)]
      exact ⟨rfl,h.right.symm⟩
    · rw [if_neg (by decide)]
      exact ⟨rfl,rfl⟩

end AtEntry

namespace OnDeleted

variable {f : KeyFrame n} {d : KeyTree n} {p : KeyPath (n + 1) m} {q' : Int × Nat} {nx pv : Int} {k : Key}

theorem exec_end (h : OnDeleted s t c live ent vals f d p e r after us ws lvs rvs q v) (hb : Sized)
    (ha : (if dir = ZNEXT then front addr ZNULL ws else back addr ZNULL us) = ZNULL) : exec (btduppos dir 0) s =
      .done ((ZNULL, 0), { s with ctx.lf := { s.ctx.lf with draddr := ZNULL, lfexct := true } }) := by
  obtain ⟨N,hN⟩ : ∃ N, FUEL = N + 1 := ⟨FUEL - 1,by have := hb.fuel; omega⟩
  have hread := h.stale.exec_read hb
  have hnull : addr q ≠ ZNULL := h.stale.addr_ne_null
  simp only [btduppos, exec_bind, exec_get, Prog.Outcome.bind_done, exec_ite, h.draddr, hnull, false_and, if_false, hread,
    hN, btdupposLoop, ha, if_true, exec_setLf, exec_pure]

theorem exec_step (h : OnDeleted s t c live ent vals f d p e r after us ws lvs rvs q v) (hb : Sized)
    (hs : Legible s D live ent) (ha : (if dir = ZNEXT then front addr ZNULL ws else back addr ZNULL us) = addr q')
    (hq : Cell live ent k q' w nx pv) : exec (btduppos dir 0) s =
      .done ((0, w), { s with ctx.lf := { s.ctx.lf with draddr := addr q', lfexct := true } }) := by
  obtain ⟨N,hN⟩ : ∃ N, FUEL = N + 1 := ⟨FUEL - 1,by have := hb.fuel; omega⟩
  have hread := h.stale.exec_read hb
  have hread' := hs.getdkey hb hq.1
  have hnull : addr q ≠ ZNULL := h.stale.addr_ne_null
  have hnull' := hs.addr_ne_null hq.1
  simp only [btduppos, exec_bind, exec_get, Prog.Outcome.bind_done, exec_ite, h.draddr, hnull, false_and, if_false, hread,
    hN, btdupposLoop, ha, hnull', hread', hq.2, Bool.false_eq_true, btdupposFound, exec_setLf, exec_pure]

-- A move from a deleted duplicate goes on where it was.
theorem along (h : OnDeleted s t c live ent vals f d p e r after us ws lvs rvs q v) (hb : Sized)
    (hs : Shelf s t fs D os live ent vals) (hdir : dir = ZNEXT ∨ dir = ZPREV) : Along s t live ent vals dir c := by
  obtain ⟨-,-,-,-,hl⟩ := h.chained.resolve_left fun hc => h.rest hc.1
  rw [h.split] at hl
  have hlen : ws.length = rvs.length := by
    have h1 := hl.length_eq
    have h2 := h.length
    simp only [List.length_append] at h1
    omega
  rcases hdir with rfl | rfl
  · cases ws with
    | nil =>
        obtain rfl : rvs = [] := List.length_eq_zero_iff.1 hlen.symm
        refine h.along_move (v := 0) hs (Or.inl rfl) ?_ (h.exec_end hb (if_pos rfl))
        rw [if_pos rfl, h.cursor, follow, follow, if_pos rfl, if_pos rfl]
        refine Cursor.next_congr ?_ rfl
        rw [items_append vals _ [e], items_single, h.split, List.append_nil]
    | cons q' ws =>
        cases rvs with
        | nil => simp at hlen
        | cons w rvs =>
            have hcell := hl.middle h.length
            refine h.along_dup hs us ws q' lvs rvs w h.split rfl h.length ?_ (h.exec_step hb hs.legible (if_pos rfl) hcell)
            rw [h.cursor, follow, if_pos rfl]
            simp [Cursor.next]
  · rcases List.eq_nil_or_concat' us with rfl | ⟨us,q',rfl⟩
    · obtain rfl : lvs = [] := List.length_eq_zero_iff.1 h.length.symm
      refine h.along_move (v := 0) hs (Or.inr rfl) ?_ (h.exec_end hb (if_neg (by decide)))
      rw [if_neg (by decide), h.cursor, follow, follow, if_neg (by decide), if_neg (by decide)]
      refine Cursor.prev_congr (by simp) ?_
      rw [items_cons, h.split]
      rfl
    · obtain ⟨lvs,w,rfl⟩ := (List.eq_nil_or_concat' lvs).resolve_left fun hnil => by
        have := h.length
        simp [hnil] at this
      have hlen' : us.length = lvs.length := by simpa using h.length
      have hl' : Linked (Cell live ent e.key) addr ZNULL ZNULL (us ++ q' :: ws) (lvs ++ w :: rvs) := by simpa using hl
      have hcell := hl'.middle hlen'
      refine h.along_dup hs us ws q' lvs rvs w (by simp [h.split]) (by simp) hlen' ?_
        (h.exec_step hb hs.legible ((if_neg (by decide)).trans (back_append _ _ _)) hcell)
      rw [h.cursor, follow, if_neg (by decide), List.map_append, ← List.append_assoc]
      exact Cursor.prev_append

end OnDeleted

-- A move from a key none of whose duplicates is selected goes to one end of them.
theorem OnWhole.along {f : KeyFrame n} {d : KeyTree n} {p : KeyPath (n + 1) m} (h : OnWhole s t live ent vals f d p e r after ps)
    (hb : Sized) (hs : Shelf s t fs D os live ent vals) (hdir : dir = ZNEXT ∨ dir = ZPREV)
    (hc : (Standing.whole (items vals ((Path.step f p).left ++ d.inorder)) ((vals e).map (e.key, ·))
      (items vals after)).cursor dir = some c) : Along s t live ent vals dir c := by
  obtain ⟨hmem,-,hent⟩ := hs.entry h.plug h.ents
  have honto : Onto s f.id f.le.length e := ⟨hs.index.has hmem,hent,h.blk,h.pos⟩
  obtain ⟨lvs,w,rvs,hvs,hend,hps⟩ := h.chained.ends dir hs.legible
  obtain ⟨us,q,ws,nx,pv,hps,hlen,hdup,hfirst,hcell⟩ := hps.resolve_left fun hno => h.dups hno.1
  have hex : exec (btduppos dir 0) s = .done ((0, w), { s with ctx.lf := { s.ctx.lf with draddr := addr q } }) :=
    Legible.exec_btduppos_enter hb hs.legible honto h.draddr h.exct hdup hfirst hcell
  have hlf : ({ s.ctx.lf with draddr := addr q } : Lf) = { s.ctx.lf with draddr := addr q, lfexct := true } := by
    rw [← h.exct]
  rw [hlf] at hex
  refine h.along_dup hs us ws q lvs rvs w hvs hps hlen ?_ hex
  rw [Standing.cursor, Option.some.injEq] at hc
  subst hc
  rcases hdir with rfl | rfl
  · rw [if_pos rfl] at hend
    subst hend
    rw [if_pos rfl, follow, if_pos rfl, hvs]
    simp [Cursor.next]
  · rw [if_neg (by decide)] at hend
    subst hend
    rw [if_neg (by decide), follow, if_neg (by decide), hvs, List.map_append, ← List.append_assoc]
    exact Cursor.prev_append

theorem Position.along (hp : Position s t live ent vals o) (hb : Sized) (hs : Shelf s t fs D os live ent vals)
    (hdir : dir = ZNEXT ∨ dir = ZPREV) (hc : o.cursor dir = some c) : Along s t live ent vals dir c := by
  cases o with
  | place c' =>
      obtain rfl : c' = c := Option.some.inj hc
      rcases hp with hp | ⟨n,f,d,p,e,r,after,us,ws,lvs,rvs,q,v,hp⟩
      · exact hs.along hb hdir hp
      · exact hp.along hb hs hdir
  | whole b vs a =>
      obtain ⟨n,f,d,p,e,r,after,ps,hp,rfl,rfl,rfl⟩ := hp
      exact hp.along hb hs hdir hc
  | out => cases hc
  | freed => cases hc
  | before => cases hc

theorem AtEntry.withCtx {f : KeyFrame n} {d : KeyTree n} {p : KeyPath (n + 1) m} (h : AtEntry s t live ent vals f d p e r after ps)
    (hlf : s'.ctx.lf = s.ctx.lf) (hstk : s'.ctx.stk = s.ctx.stk) : AtEntry s' t live ent vals f d p e r after ps :=
  ⟨h.plug,by rw [hlf, h.blk],by rw [hlf, h.pos],by rw [hstk, h.stack],h.ents,by rw [hlf, h.lfkey],h.right,h.chained⟩

theorem Position.withCtx (hp : Position s t live ent vals o) (hdisk : s'.disk = s.disk) (hlf : s'.ctx.lf = s.ctx.lf)
    (hstk : s'.ctx.stk = s.ctx.stk) (hroot : s'.ctx.super.scroot = s.ctx.super.scroot) : Position s' t live ent vals o := by
  have hstale : ∀ {q : Int × Nat} {d : DKey} {gone : Prop}, Stale s q d gone → Stale s' q d gone := fun h =>
    h.of_block (by rw [hdisk]; exact h.has) (by rw [hdisk])
  cases o with
  | out => exact ⟨by rw [hlf, hp.blk],by rw [hlf, hp.exct],by rw [hlf, hp.draddr]⟩
  | place c =>
      rcases hp with hp | ⟨n,f,d,p,e,r,after,us,ws,lvs,rvs,q,v,hp⟩
      · exact Or.inl (hp.withCtx hlf hstk)
      · exact Or.inr ⟨n,f,d,p,e,r,after,us,ws,lvs,rvs,q,v,hp.toAtEntry.withCtx hlf hstk,hp.split,hp.length,hp.rest,
          by rw [hlf, hp.exct],by rw [hlf, hp.draddr],hstale hp.stale,hp.cursor⟩
  | whole b vs a =>
      obtain ⟨n,f,d,p,e,r,after,ps,hp,hrest⟩ := hp
      exact ⟨n,f,d,p,e,r,after,ps,⟨hp.toAtEntry.withCtx hlf hstk,hp.dups,by rw [hlf, hp.exct],by rw [hlf, hp.draddr]⟩,hrest⟩
  | freed =>
      obtain ⟨q,d,hp⟩ := hp
      exact ⟨q,d,by rw [hlf, hp.exct],by rw [hlf, hp.draddr],hstale hp.stale⟩
  | before =>
      exact ⟨by rw [hlf, hroot, hp.blk],by rw [hlf, hp.pos],by rw [hlf, hp.exct],by rw [hlf, hp.draddr],by rw [hstk, hp.stack],
        by rw [hdisk, hroot]; exact hp.keys⟩

-- A move of a handle of its own, that has come to `o` in the same tree.
structure Went (s : St) (t : KeyTree m) (live : Finset (Int × Nat)) (ent : Int × Nat → DKey) (vals : KeyEnt → List Int)
    (o : Standing) (s' : St) : Prop where
  disk : s'.disk = s.disk
  ctx : s'.ctx = { s.ctx with lf := s'.ctx.lf, stk := s'.ctx.stk, err := s'.ctx.err }
  position : Position s' t live ent vals o

section Moves

variable {E : Op → Disk → Prop} {a : Move} {x : Int × Option Item} {o' : Standing} {fn : String} {s1 : St}
  {body : BT (Option Item)} {P : (Int × Option Item) × St → Prop}

theorem ends_own_call (hopen : s.ctx.isopen = true) (hown : s.ctx.shared = false)
    (hbody : (exec body s.clear).Ends E fun r => r.2.ctx.shared = false ∧ P ((r.2.ctx.err.qerror, r.1), r.2)) :
    (exec (api fn (·, none) (withErr (locked fn none body))) s).Ends E P := by
  rw [exec_api hopen, withErr, exec_bind]
  refine Prog.Outcome.Ends.bind (ends_locked hown hbody) fun r hr => ?_
  simpa using hr

theorem Goes.went {p : Option (Item × Cursor Item)} {g : Option Item × St} {y : BT Unit} (err : Err)
    (h : Goes s t live ent vals p g) (h0 : s.ctx.err.qerror = 0)
    (hy : g.2.ctx.lf.lfblk = ZNULL → g.2.ctx.err.qerror = 0 → ∃ lf, exec y g.2 =
      .done ((), { g.2 with ctx.lf := lf, ctx.err := err }) ∧ (lf = g.2.ctx.lf ∨ lf = ⟨[],ZNULL,ZNULL,false,ZNULL⟩))
    (herr : err.qerror = QNOKEY) :
    (exec (do
      let lf := (← get).lf
      if lf.lfblk = ZNULL then y
      pure g.1) g.2).Ends E fun r => (r.2.ctx.err.qerror, r.1) = Move.reply p ∧
        Went s t live ent vals (Standing.arrive p) r.2 := by
  obtain ⟨hw,ho⟩ := h
  have herr0 : g.2.ctx.err.qerror = 0 := by
    rw [hw.ctx]
    exact h0
  have hctx := hw.ctx
  cases p with
  | none =>
      obtain ⟨hg,hlost⟩ := ho
      obtain ⟨lf,hex,hlf⟩ := hy hlost.blk herr0
      simp only [exec_bind, exec_get, Prog.Outcome.bind_done, exec_ite, hlost.blk, if_true, hex, exec_pure,
        Prog.Outcome.ends_done]
      refine ⟨by rw [hg, herr]; rfl,hw.disk,?_,?_⟩
      · rw [hctx]
      · rcases hlf with rfl | rfl
        · exact ⟨hlost.blk,hlost.exct,hlost.draddr⟩
        · exact ⟨rfl,rfl,rfl⟩
  | some z =>
      obtain ⟨hg,hblk,hs'⟩ := ho
      simp only [exec_bind, exec_get, Prog.Outcome.bind_done, exec_ite, if_neg hblk, exec_pure,
        Prog.Outcome.ends_done]
      refine ⟨by rw [hg, herr0]; rfl,hw.disk,?_,Or.inl hs'⟩
      rw [hctx]

-- A move from the position `o`, where the list says what is next to it.
theorem ends_own_walk {move : BT (Option Item)} (h : Shelf s t fs D os live ent vals)
    (hown : s.ctx.shared = false) (h0 : s.ctx.err.qerror = 0) (ha : Along s t live ent vals dir c)
    (hmove : ∀ (bs as : List KeyEnt) (s1 : St), Shelf s1 t fs D os live ent vals → s1.ctx.err.qerror = 0 →
      Departs s1 t dir bs as → (exec move s1).Ends (Refused s1.ctx.super.scroot) fun r =>
        (r.2.ctx.err.qerror, r.1) = Move.reply (follow dir ⟨items vals bs, none, items vals as⟩) ∧
          Went s1 t live ent vals (Standing.arrive (follow dir ⟨items vals bs, none, items vals as⟩)) r.2) :
    (exec (walk dir move) s).Ends (Refused s.ctx.super.scroot) fun r =>
      r.2.ctx.shared = false ∧ (r.2.ctx.err.qerror, r.1) = Move.reply (follow dir c) ∧
        Went s t live ent vals (Standing.arrive (follow dir c)) r.2 := by
  cases ha with
  | dup x c' s1 hc hex hkey hw hs' =>
      have herr1 : s1.ctx.err.qerror = 0 := by
        rw [hw.ctx]
        exact h0
      have hctx := hw.ctx
      rw [exec_walk_dup hex, Prog.Outcome.ends_done, hc, hkey]
      refine ⟨hw.stays.shared.trans hown,by rw [herr1]; rfl,hw.disk,?_,Or.inl hs'⟩
      rw [hctx]
  | move bs as v s1 hc hex hw hkey hblk hd ha =>
      have h1 := h.walked hw
      have hst := hw.stays
      have herr1 : s1.ctx.err.qerror = 0 := by
        rw [hw.ctx]
        exact h0
      have hre : exec refind s1 = .done ((), s1) := by
        simp [refind, hst.shared.trans hown]
      rw [exec_walk_move hex, hc, exec_bind, hre, Prog.Outcome.bind_done, ← hst.root]
      refine (hmove bs as s1 h1 herr1 hd).mono (fun _ _ h => h) fun r hr => ?_
      obtain ⟨hr,hwent⟩ := hr
      have hctx1 := hw.ctx
      have hctx2 := hwent.ctx
      refine ⟨?_,hr,hwent.disk.trans hw.disk,?_,hwent.position⟩
      · rw [hctx2]
        exact hst.shared.trans hown
      · rw [hctx2, hctx1]

-- The move of `bnxtky`, of `bprvky`: `last` says that there is nothing more.
def moveBy (loop : BT (Option Item)) (last : BT Unit) : BT (Option Item) := do
  let r ← loop
  let lf := (← get).lf
  if lf.lfblk = ZNULL then last
  pure r

-- The two moves as one.
def Move.loop (a : Move) : BT (Option Item) := if a = .next then bnxtkyLoop FUEL else bprvkyLoop FUEL

def Move.name (a : Move) : String := if a = .next then "BNXTKY" else "BPRVKY"

def Move.last (a : Move) : BT Unit := do
  if a = .next then bclrlf
  bterr a.name QNOKEY .none

theorem Move.answer_eq (a : Move) :
    a.answer = api a.name (·, none) (withErr (locked a.name none (walk a.dir (moveBy a.loop a.last)))) := by
  cases a <;> rfl

omit [Build] in
theorem Move.dir_cases (a : Move) : a.dir = ZNEXT ∨ a.dir = ZPREV := by
  cases a
  · exact Or.inl rfl
  · exact Or.inr rfl

omit [Build] in
theorem exec_move_last (a : Move) (h : s.ctx.err.qerror = 0) : ∃ lf, exec a.last s =
    .done ((), { s with ctx.lf := lf, ctx.err := ⟨a.name, QNOKEY, .none⟩ }) ∧
      (lf = s.ctx.lf ∨ lf = ⟨[],ZNULL,ZNULL,false,ZNULL⟩) := by
  cases a with
  | next => exact ⟨_,exec_next_end h,Or.inr rfl⟩
  | prev => exact ⟨s.ctx.lf,by simp [Move.last, Move.name, h],Or.inl rfl⟩

theorem Shelf.ends_moveBy (hb : Sized) (h : Shelf s t fs D os live ent vals) (hf : t.inorder.length + 3 ≤ FUEL)
    (h0 : s.ctx.err.qerror = 0) {bs as : List KeyEnt} (hd : Departs s t a.dir bs as) :
    (exec (moveBy a.loop a.last) s).Ends (Refused s.ctx.super.scroot) fun r =>
      (r.2.ctx.err.qerror, r.1) = Move.reply (follow a.dir ⟨items vals bs, none, items vals as⟩) ∧
        Went s t live ent vals (Standing.arrive (follow a.dir ⟨items vals bs, none, items vals as⟩)) r.2 := by
  rw [moveBy, exec_bind]
  refine Prog.Outcome.Ends.bind (P := Goes s t live ent vals (follow a.dir ⟨items vals bs, none, items vals as⟩)) ?_
    fun r hr => hr.went ⟨a.name, QNOKEY, .none⟩ h0 (fun _ h0 => exec_move_last a h0) rfl
  cases a with
  | next => exact h.ends_next hb hf hd
  | prev => exact h.ends_prev hb hf hd

variable (t live ent vals) in
-- A move that has nowhere to go.
theorem exec_moveBy_none (hloop : exec a.loop s = .done (none, s1)) (hw : Outside s s1) (h0 : s.ctx.err.qerror = 0) :
    ∃ s', exec (moveBy a.loop a.last) s = .done (none, s') ∧ s'.ctx.err.qerror = QNOKEY ∧
      Went s t live ent vals .out s' := by
  have hctx := hw.ctx
  have h1 : s1.ctx.err.qerror = 0 := by
    rw [hctx]
    exact h0
  obtain ⟨lf,hlast,hlf⟩ := exec_move_last a h1
  refine ⟨{ s1 with ctx.lf := lf, ctx.err := ⟨a.name, QNOKEY, .none⟩ },?_,rfl,hw.disk,?_,?_⟩
  · simp only [moveBy, exec_bind, hloop, exec_get, Prog.Outcome.bind_done, exec_ite, hw.blk, if_true, hlast, exec_pure]
  · rw [hctx]
  · rcases hlf with rfl | rfl
    · exact ⟨hw.blk,hw.exct,hw.draddr⟩
    · exact ⟨rfl,rfl,rfl⟩

theorem Shelf.exec_prev_before (h : Shelf s t fs D os live ent vals) (hf : t.inorder.length + 3 ≤ FUEL)
    (hp : BeforeRoot s) : ∃ s1, exec (bprvkyLoop FUEL) s = .done (none, s1) ∧ Outside s s1 := by
  obtain ⟨N,hN⟩ : ∃ N, FUEL = N + 2 := ⟨FUEL - 2,by omega⟩
  obtain ⟨n,g,d,rfl,hfill,hid,-⟩ := h.root 0
  dsimp only at hfill
  subst hfill
  have hneg : s.ctx.lf.lfpos < 0 := by
    rw [hp.pos]
    decide
  have hloop := exec_bprvkyLoop_pull (N := N + 1) (p := .root) h.index (hp.blk.trans hid.symm) (Or.inl hneg)
  rw [exec_pull_root (n := n) hp.stack, Prog.Outcome.bind_done] at hloop
  rw [hN]
  exact ⟨_,hloop.trans (exec_bprvkyLoop_out rfl),rfl,rfl,rfl,rfl,rfl⟩

-- A move from where no place is: nothing is found, and the handle is out of the index or as it was.
theorem ends_own_none (h : Shelf s t fs D os live ent vals) (hown : s.ctx.shared = false) (hf : t.inorder.length + 3 ≤ FUEL)
    (h0 : s.ctx.err.qerror = 0) (hp : Position s t live ent vals o) (hcur : o.cursor a.dir = none)
    (hgo : o.go a = some (x, o')) : (exec (walk a.dir (moveBy a.loop a.last)) s).Ends E fun r =>
      r.2.ctx.shared = false ∧ (r.2.ctx.err.qerror, r.1) = x ∧ Went s t live ent vals o' r.2 := by
  have hout : ∀ s1 : St, exec a.loop s = .done (none, s1) → Outside s s1 →
      (exec (moveBy a.loop a.last) s).Ends E fun r =>
        r.2.ctx.shared = false ∧ (r.2.ctx.err.qerror, r.1) = (QNOKEY, none) ∧ Went s t live ent vals .out r.2 :=
    fun s1 hloop hw => by
      obtain ⟨s2,hex,herr,hwent⟩ := exec_moveBy_none live ent vals t hloop hw h0
      rw [hex, Prog.Outcome.ends_done]
      refine ⟨?_,by rw [herr],hwent⟩
      rw [hwent.ctx]
      exact hown
  obtain ⟨N,hN⟩ : ∃ N, FUEL = N + 1 := ⟨FUEL - 1,by omega⟩
  cases o with
  | place c => cases hcur
  | whole b vs r => cases hcur
  | out =>
      have hlost : Lost s := hp
      obtain ⟨rfl,rfl⟩ : (QNOKEY, none) = x ∧ Standing.out = o' := Prod.mk.inj (Option.some.inj hgo)
      rw [exec_walk_lost hlost]
      refine hout s ?_ ⟨rfl,rfl,hlost.blk,hlost.exct,hlost.draddr⟩
      cases a
      · exact (congrArg (fun k => exec (bnxtkyLoop k) s) hN).trans (exec_bnxtkyLoop_out hlost.blk)
      · exact (congrArg (fun k => exec (bprvkyLoop k) s) hN).trans (exec_bprvkyLoop_out hlost.blk)
  | freed =>
      obtain ⟨q,d,hq⟩ := hp
      obtain ⟨rfl,rfl⟩ : (QNOTDUP, none) = x ∧ Standing.freed = o' := Prod.mk.inj (Option.some.inj hgo)
      have hread := hq.stale.exec_freed h0
      have hnull := hq.stale.addr_ne_null
      have hpos : (0 : Int) < QNOTDUP := by decide
      have hdup : exec (btduppos a.dir 0) s =
          .done ((QNOTDUP, 0), { s with ctx.err := ⟨"GETDKEY", QNOTDUP, .num (addr q)⟩ }) := by
        simp [btduppos, hq.draddr, hnull, hread, hown]
      simp only [walk, exec_bind, hdup, Prog.Outcome.bind_done, exec_ite, if_pos hpos, exec_pure, Prog.Outcome.ends_done]
      exact ⟨hown,trivial,rfl,rfl,q,d,hq.exct,hq.draddr,hq.stale.of_block hq.stale.has rfl⟩
  | before =>
      have hbef : BeforeRoot s := hp
      cases a with
      | next => cases hgo
      | prev =>
          obtain ⟨rfl,rfl⟩ : (QNOKEY, none) = x ∧ Standing.out = o' := Prod.mk.inj (Option.some.inj hgo)
          obtain ⟨s1,hloop,hw⟩ := h.exec_prev_before hf hbef
          have hre : exec refind s = .done ((), s) := by simp [refind, hown]
          rw [exec_walk_move (Legible.exec_btduppos_gap hbef.draddr hbef.exct), exec_bind, hre, Prog.Outcome.bind_done]
          exact hout _ hloop hw

-- A move of a handle of its own; only one forwards from before the root block is left out.
theorem ends_own_move (hb : Sized) (h : Shelf s t fs D os live ent vals) (hown : s.ctx.shared = false)
    (hf : t.inorder.length + 3 ≤ FUEL) (hp : Position s t live ent vals o) (a : Move) (hgo : o.go a = some (x, o')) :
    (exec a.answer s).Ends (Refused s.ctx.super.scroot) fun r => r.1 = x ∧ Went s t live ent vals o' r.2 := by
  rw [a.answer_eq]
  refine ends_own_call h.isopen hown ?_
  have hc : Shelf s.clear t fs D os live ent vals := h.same rfl rfl rfl
  have hpc : Position s.clear t live ent vals o := hp.withCtx rfl rfl rfl rfl
  have hback : ∀ r : Option Item × St, Went s.clear t live ent vals o' r.2 → Went s t live ent vals o' r.2 := fun r hr =>
    ⟨hr.disk,by rw [hr.ctx]; rfl,hr.position⟩
  cases hcur : o.cursor a.dir with
  | none =>
      refine (ends_own_none hc hown hf rfl hpc hcur hgo).mono (fun _ _ h => h) fun r hr => ?_
      exact ⟨hr.1,hr.2.1,hback r hr.2.2⟩
  | some c =>
      unfold Standing.go at hgo
      rw [hcur] at hgo
      obtain ⟨rfl,rfl⟩ := Prod.mk.inj (Option.some.inj hgo)
      refine (ends_own_walk hc hown rfl (hpc.along hb hc a.dir_cases hcur) fun bs as s1 h1 herr1 hd =>
        h1.ends_moveBy hb hf herr1 hd).mono (fun _ _ h => h) fun r hr => ?_
      exact ⟨hr.1,hr.2.1,hback r hr.2.2⟩

end Moves

end Btlib
