import PlayXv6.Lib.Holders
import PlayXv6.Driver.VirtioBlk

/-
  The descriptor protocol of the virtio block driver.

  Every descriptor is held once, by the pool of free ones or
  by a request in flight, and the links of a chain stay as
  they were written until `finish` follows them.  The head of
  a request is on the available ring, with the device or on
  the used ring until `on_irq` has stored its completion.
  Both rings have room for all heads in flight, so their
  entries are never overwritten.

  Main declarations:
    * `Table`, `Flow`
    * `Table.submit`, `Table.release`
-/

namespace PlayXv6

open Function

variable {i usedNow status : Nat}

namespace VirtioBlk

-- Descriptors

/- Who holds which descriptors; `none` is the free pool. -/
def Blk.held (s : Blk) : Option Nat → List Nat
  | none => (List.range NUM).filter s.free
  | some t => ((s.req t).map Req.chain).getD []

/- The descriptors are as `submit_chain` wrote them. -/
structure Req.Linked (desc : Nat → VirtqDesc) (r : Req) : Prop where
  head : desc r.i0 = Blk.headDesc r
  data : desc r.i1 = Blk.dataDesc r
  status : desc r.i2 = Blk.statusDesc r

structure Table (s : Blk) : Prop where
  held : Holders s.held (· < NUM)
  linked : ∀ t r, s.req t = some r → r.Linked s.desc

variable {s s' : Blk} {t u : Nat} {r q : Req} {desc : Nat → VirtqDesc} {free free' : Nat → Bool}
variable {p : Phase}

theorem held_req (hReq : s.req t = some r) : s.held (some t) = r.chain := by
  rw [Blk.held, hReq]
  rfl

theorem Table.nodup (hTable : Table s) (hReq : s.req t = some r) :
    r.chain.Nodup := by
  rw [← held_req hReq]
  exact hTable.held.nodup _

theorem Table.lt (hTable : Table s) (hReq : s.req t = some r) (hMem : i ∈ r.chain) : i < NUM := by
  rw [← held_req hReq] at hMem
  exact hTable.held.live_of_mem hMem

theorem Table.unique (hTable : Table s) (hReq : s.req t = some r) (hOther : s.req u = some q)
    (hMem : i ∈ r.chain) (hAlso : i ∈ q.chain) : t = u := by
  rw [← held_req hReq] at hMem
  rw [← held_req hOther] at hAlso
  exact Option.some.inj (hTable.held.unique _ _ i hMem hAlso)

theorem Table.not_mem (hTable : Table s) (hReq : s.req t = some r) (hLt : i < NUM)
    (hFree : s.free i = true) : i ∉ r.chain := by
  intro hMem
  rw [← held_req hReq] at hMem
  have hPool : i ∈ s.held none := List.mem_filter.mpr ⟨List.mem_range.mpr hLt, hFree⟩
  have hSame := hTable.held.unique _ _ i hMem hPool
  cases hSame

theorem Table.not_free (hTable : Table s) (hReq : s.req t = some r) (hMem : i ∈ r.chain) :
    s.free i = false := by
  rw [Bool.eq_false_iff]
  intro hFree
  exact hTable.not_mem hReq (hTable.lt hReq hMem) hFree hMem

theorem mem_chain_i0 : r.i0 ∈ r.chain := List.mem_cons_self ..

/- The head tells requests in flight apart. -/
theorem Table.head_inj (hTable : Table s) (hReq : s.req t = some r) (hOther : s.req u = some q)
    (hHead : r.i0 = q.i0) : t = u := by
  refine hTable.unique hReq hOther mem_chain_i0 ?_
  rw [hHead]
  exact mem_chain_i0

theorem Table.frame (hTable : Table s) (hReq : s'.req = s.req) (hFree : s'.free = s.free)
    (hDesc : s'.desc = s.desc) : Table s' := by
  have hHeld : s'.held = s.held := by
    funext k
    cases k with
    | none => rw [Blk.held, Blk.held, hFree]
    | some t => rw [Blk.held, Blk.held, hReq]
  constructor
  · rw [hHeld]
    exact hTable.held
  · rw [hReq, hDesc]
    exact hTable.linked

@[grind =]
theorem req_setPhase (u : Nat) : (s.setPhase t p).req u = if u = t then p.req else s.req u := by
  simp only [Blk.req, Blk.setPhase, update_apply]
  split <;> rfl

theorem req_setPhase_self : (s.setPhase t p).req t = p.req := by grind

theorem req_setPhase_ne (hNe : u ≠ t) : (s.setPhase t p).req u = s.req u := by grind

theorem filter_perm {l : List Nat} (hNodup : l.Nodup) (hTaken : ∀ j ∈ l, j < NUM ∧ free j = true)
    (hFree : ∀ i, free' i = (free i && decide (i ∉ l))) : ((List.range NUM).filter free).Perm
      (l ++ (List.range NUM).filter free') := by
  have hRange : (List.range NUM).Nodup := List.nodup_range
  have hApart : l.Disjoint ((List.range NUM).filter free') := by
    intro i hi hRest
    have hSet := (List.mem_filter.mp hRest).2
    rw [hFree i] at hSet
    simp [hi] at hSet
  rw [List.perm_ext_iff_of_nodup (hRange.filter _) (hNodup.append (hRange.filter _) hApart)]
  intro i
  have hIn := hTaken i
  rw [List.mem_append, List.mem_filter, List.mem_filter, hFree i, List.mem_range]
  grind

/- The links of a chain lead through its descriptors. -/
theorem freeChain_req (hLinked : r.Linked desc) (hNodup : r.chain.Nodup) :
    freeChain desc free r.i0 NUM = some (update (update (update desc
          r.i0 VirtqDesc.ZERO) r.i1 VirtqDesc.ZERO) r.i2 VirtqDesc.ZERO, update (update (update free
          r.i0 true) r.i1 true) r.i2 true) := by
  have hNe : r.i1 ≠ r.i0 ∧ r.i2 ≠ r.i0 ∧ r.i2 ≠ r.i1 := by
    simp only [Req.chain, List.nodup_cons, List.mem_cons,
      List.not_mem_nil, or_false, not_or] at hNodup
    exact ⟨Ne.symm hNodup.1.1, Ne.symm hNodup.1.2, Ne.symm hNodup.2.1⟩
  have hData : update desc r.i0 VirtqDesc.ZERO r.i1 = Blk.dataDesc r := by
    rw [update_of_ne hNe.1, hLinked.data]
  have hStatus : update (update desc
      r.i0 VirtqDesc.ZERO) r.i1 VirtqDesc.ZERO r.i2 = Blk.statusDesc r := by
    rw [update_of_ne hNe.2.2, update_of_ne hNe.2.1, hLinked.status]
  have hHeadNext : (desc r.i0).flags &&& DESC_F_NEXT ≠ 0 := by
    rw [hLinked.head]
    show DESC_F_NEXT &&& DESC_F_NEXT ≠ 0
    decide
  have hDataNext : (Blk.dataDesc r).flags &&& DESC_F_NEXT ≠ 0 := by
    show (if r.request.write then DESC_F_NEXT
      else DESC_F_NEXT ||| DESC_F_WRITE) &&& DESC_F_NEXT ≠ 0
    split <;> decide
  have hLast : (Blk.statusDesc r).flags &&& DESC_F_NEXT = 0 := by
    show DESC_F_WRITE &&& DESC_F_NEXT = 0
    decide
  rw [freeChain_link hHeadNext, hLinked.head]
  show freeChain _ _ r.i1 _ = _
  rw [← hData] at hDataNext
  rw [freeChain_link hDataNext, hData]
  show freeChain _ _ r.i2 _ = _
  rw [← hStatus] at hLast
  rw [freeChain_last hLast]

theorem freed_iff (r : Req) (free : Nat → Bool) (i : Nat) :
    update (update (update free r.i0 true) r.i1 true) r.i2 true i =
      (free i || decide (i ∈ r.chain)) := by
  simp only [Req.chain, List.mem_cons, List.not_mem_nil, or_false, update_apply]
  grind

theorem update_three {α : Type} {f : Nat → α} {x y z : α} (hOut : i ∉ r.chain) :
    update (update (update f r.i0 x) r.i1 y) r.i2 z i = f i := by
  simp only [Req.chain, update_apply] at hOut ⊢
  grind

theorem Req.Linked.update {x y z : VirtqDesc} (hLinked : q.Linked desc)
    (hApart : ∀ i ∈ q.chain, i ∉ r.chain) :
    q.Linked (update (update (update desc r.i0 x) r.i1 y) r.i2 z) where
  head := (update_three (hApart _ (by simp [Req.chain]))).trans hLinked.head
  data := (update_three (hApart _ (by simp [Req.chain]))).trans hLinked.data
  status := (update_three (hApart _ (by simp [Req.chain]))).trans hLinked.status

theorem Table.submit (hTable : Table s) (hIdle : s.req t = none) (hAlloc : allocThree s.free =
      (some [r.i0, r.i1, r.i2], free')) : Table (({ s with free := free' }.writeChain r).setPhase t
      (.opening r)) := by
  rcases allocLoop_some hAlloc with ⟨new, hNew, _, hNodup, hTaken, hRest⟩
  rw [List.nil_append] at hNew
  subst hNew
  have hOut : ∀ u q, s.req u = some q → ∀ i ∈ q.chain, i ∉ r.chain := by
    intro u q hq i hi hMem
    have hPool := hTaken i hMem
    exact hTable.not_mem hq hPool.1 hPool.2 hi
  constructor
  · refine hTable.held.transfer (i := none) (j := some t)
      (l := r.chain) (by simp) ?_ ?_ ?_ (fun _ => Iff.rfl)
    · exact filter_perm hNodup hTaken hRest
    · rw [held_req (r := r) req_setPhase_self, Blk.held, hIdle]
      simp
    · intro k hk hk'
      cases k with
      | none => exact absurd rfl hk
      | some u =>
        have hSame := req_setPhase_ne (s := { s with free := free' }.writeChain r)
          (p := .opening r) (fun hEq => hk' (congrArg some hEq) : u ≠ t)
        rw [Blk.held, hSame]
        rfl
  · intro u q hq
    by_cases hu : u = t
    · subst hu
      rw [req_setPhase_self] at hq
      cases hq
      constructor <;> simp only [Blk.setPhase, Blk.writeChain, update_apply] <;> grind
    · rw [req_setPhase_ne hu] at hq
      exact (hTable.linked u q hq).update (hOut u q hq)

theorem Table.release (hTable : Table s) (hReq : s.req t = some r) (hGone : s'.req t = none)
    (hKeep : ∀ u, u ≠ t → s'.req u = s.req u) (hChain : freeChain s.desc s.free r.i0 NUM =
      some (s'.desc, s'.free)) : Table s' := by
  have hNodup := hTable.nodup hReq
  rw [freeChain_req (hTable.linked t r hReq) hNodup, Option.some.injEq, Prod.mk.injEq] at hChain
  rcases hChain with ⟨hDesc, hFree⟩
  have hFreed : ∀ i, s'.free i = (s.free i || decide (i ∈ r.chain)) := by
    intro i
    rw [← hFree]
    exact freed_iff r s.free i
  constructor
  · refine hTable.held.transfer (i := some t) (j := none)
      (l := r.chain) (by simp) ?_ ?_ ?_ (fun _ => Iff.rfl)
    · rw [held_req hReq, Blk.held, hGone]
      simp
    · refine filter_perm hNodup ?_ ?_
      · intro j hj
        exact ⟨hTable.lt hReq hj, by simp [hFreed, hj]⟩
      · intro i
        have hNot := hTable.not_free hReq (i := i)
        grind
    · intro k hk hk'
      cases k with
      | none => exact absurd rfl hk'
      | some u => rw [Blk.held, hKeep u (fun hEq => hk (congrArg some hEq)), Blk.held]
  · intro u q hq
    have hu : u ≠ t := by grind
    rw [hKeep u hu] at hq
    rw [← hDesc]
    refine (hTable.linked u q hq).update ?_
    intro i hi hMem
    exact hu (hTable.unique hq hReq hi hMem)

-- Requests and Their Completion

/- `BlockOp` of the request has become ready. -/
def Phase.IsReady (r : Req) : Phase → Prop
  | .ready q => q = r
  | .finishing q _ => q = r
  | _ => False

structure Serials (s : Blk) : Prop where
  owner : ∀ t r, s.req t = some r → s.owner r.i0 = r.serial
  done : ∀ t r, s.req t = some r → s.completed r.i0 = true → r.serial ∈ s.done
  ready : ∀ t r, (s.phase t).IsReady r → s.completed r.i0 = true

/- The entries of the used ring without a stored completion. -/
def Irq.unread (back : List Nat) : Irq → List Nat
  | .stored _ _ => back.tail
  | .taken _ _ => back.tail
  | _ => back

/- `on_irq` works on the entries that were there before. -/
def Irq.Fits (usedIdx : Nat) (back : List Nat) : Irq → Prop
  | .out => True
  | .drain n => ∃ k ≤ back.length, n = (usedIdx + k) % IDX
  | .stored n id => back.head? = some id ∧ ∃ k ≤ back.length, 0 < k ∧ n = (usedIdx + k) % IDX
  | .taken n _ => ∃ k ≤ back.length, 0 < k ∧ n = (usedIdx + k) % IDX

/-
  Where the heads in flight are: `sent` on the available ring,
  then with the device, then `back` on the used ring.
-/
structure Flow (s : Blk) (sent back : List Nat) : Prop where
  seen : s.device.seen < IDX
  read : s.usedIdx < IDX
  avail : Wheel.Window NUM IDX s.avail s.device.seen sent
  used : Wheel.Window NUM IDX s.used s.usedIdx back
  nodup : (sent ++ s.device.pending ++ back).Nodup
  flying : ∀ h ∈ sent ++ s.device.pending ++ back, ∃ t r, s.req t = some r ∧ r.i0 = h
  running : ∀ h ∈ sent ++ s.device.pending ++ s.irq.unread back, s.completed h = false
  done : ∀ h ∈ back, s.owner h ∈ s.done
  irq : s.irq.Fits s.usedIdx back

variable {id : Nat} {sent back : List Nat} {phase : Nat → Phase} {wakers : Nat → Option Nat}
variable {w : WaitLists Unit Nat}

theorem Phase.IsReady.req (hReady : p.IsReady r) : p.req = some r := by
  cases p with
  | ready q | finishing q status => exact congrArg some hReady
  | _ => exact hReady.elim

theorem Table.quiet (hTable : Table s) (hReq : ∀ t, (phase t).req = (s.phase t).req) :
    Table { s with
      phase := phase
      wakers := wakers
      descWaiters := w } := hTable.frame (funext hReq) rfl rfl

theorem Serials.quiet (hSerials : Serials s) (hReq : ∀ t, (phase t).req = (s.phase t).req)
    (hReady : ∀ t r, (phase t).IsReady r → s.completed r.i0 = true) :
    Serials { s with
      phase := phase
      wakers := wakers
      descWaiters := w } where
  owner t r hr := hSerials.owner t r ((hReq t).symm.trans hr)
  done t r hr := hSerials.done t r ((hReq t).symm.trans hr)
  ready := hReady

theorem Flow.quiet (hFlow : Flow s sent back) (hReq : ∀ t, (phase t).req = (s.phase t).req) :
    Flow { s with
      phase := phase
      wakers := wakers
      descWaiters := w } sent back where
  seen := hFlow.seen
  read := hFlow.read
  avail := hFlow.avail
  used := hFlow.used
  nodup := hFlow.nodup
  flying h hh := by
    rcases hFlow.flying h hh with ⟨t, r, hr, hHead⟩
    exact ⟨t, r, (hReq t).trans hr, hHead⟩
  running := hFlow.running
  done := hFlow.done
  irq := hFlow.irq

theorem dvd_idx : NUM ∣ IDX := by decide

/- All heads in flight fit into a ring. -/
theorem length_lt_of_nodup {l : List Nat} (hNodup : (id :: l).Nodup)
    (hLt : ∀ h ∈ id :: l, h < NUM) : l.length < NUM := by
  have hSub : id :: l ⊆ List.range NUM := fun h hh => List.mem_range.mpr (hLt h hh)
  have hLe := (hNodup.subperm hSub).length_le
  rw [List.length_cons, List.length_range] at hLe
  exact hLe

theorem Flow.lt (hFlow : Flow s sent back) (hTable : Table s) {h : Nat}
    (hMem : h ∈ sent ++ s.device.pending ++ back) : h < NUM := by
  rcases hFlow.flying h hMem with ⟨t, r, hr, rfl⟩
  exact hTable.lt hr mem_chain_i0

theorem Flow.not_mem (hFlow : Flow s sent back) (hTable : Table s) (hLt : id < NUM)
    (hFree : s.free id = true) : id ∉ sent ++ s.device.pending ++ back := by
  intro hMem
  rcases hFlow.flying id hMem with ⟨t, r, hr, rfl⟩
  exact hTable.not_mem hr hLt hFree mem_chain_i0

-- Submission and Release

theorem Flow.submit (hFlow : Flow s sent back) (hTable : Table s) (hIdle : s.req t = none)
    (hLt : r.i0 < NUM) (hFree : s.free r.i0 = true) (hOut : s.irq = .out) :
    Flow (({ s with free := free' }.writeChain r).setPhase t
      (.opening r)) (sent ++ [r.i0]) back := by
  have hNew := hFlow.not_mem hTable hLt hFree
  have hParts : r.i0 ∉ sent ∧ r.i0 ∉ s.device.pending ∧ r.i0 ∉ back := by
    simpa only [List.mem_append, not_or, and_assoc] using hNew
  have hNodup : (r.i0 :: (sent ++ s.device.pending ++
      back)).Nodup := List.nodup_cons.mpr ⟨hNew, hFlow.nodup⟩
  have hPerm : (sent ++ [r.i0] ++ s.device.pending ++ back).Perm
      (r.i0 :: (sent ++ s.device.pending ++ back)) := by
    simp only [List.append_assoc]
    exact List.perm_middle
  have hRoom : sent.length < NUM := by
    have hAll := length_lt_of_nodup hNodup (by
      intro h hh
      rcases List.mem_cons.mp hh with rfl | hh
      · exact hLt
      · exact hFlow.lt hTable hh)
    simp only [List.length_append] at hAll
    omega
  have hKeep : ∀ u q, s.req u = some q → (({ s with free := free' }.writeChain r).setPhase t
        (.opening r)).req u = some q := by
    intro u q hq
    have hu : u ≠ t := by grind
    exact (req_setPhase_ne hu).trans hq
  refine ⟨hFlow.seen, hFlow.read, hFlow.avail.push dvd_idx hRoom, hFlow.used,
    hPerm.nodup_iff.mpr hNodup, ?_, ?_, ?_, ?_⟩
  · intro h hh
    rcases List.mem_cons.mp (hPerm.mem_iff.mp hh) with rfl | hh
    · exact ⟨t, r, req_setPhase_self, rfl⟩
    · rcases hFlow.flying h hh with ⟨u, q, hq, hHead⟩
      exact ⟨u, q, hKeep u q hq, hHead⟩
  · intro h hh
    have hBack : s.irq.unread back = back := by rw [hOut]; rfl
    have hh' : h ∈ sent ++ [r.i0] ++ s.device.pending ++ s.irq.unread back := hh
    rw [hBack] at hh'
    have hOld := hFlow.running h
    rw [hBack] at hOld
    simp only [Blk.setPhase, Blk.writeChain, update_apply]
    grind
  · intro h hh
    have hOld := hFlow.done h hh
    simp only [Blk.setPhase, Blk.writeChain, update_apply]
    grind
  · show s.irq.Fits _ _
    rw [hOut]
    trivial

theorem Serials.submit (hSerials : Serials s) (hTable : Table s)
    (hLt : r.i0 < NUM) (hFree : s.free r.i0 = true) :
    Serials (({ s with free := free' }.writeChain r).setPhase t (.opening r)) := by
  have hNe : ∀ u q, s.req u = some q → q.i0 ≠ r.i0 := by
    intro u q hq hEq
    refine hTable.not_mem hq hLt hFree ?_
    rw [← hEq]
    exact mem_chain_i0
  have hSame : ∀ u, (({ s with free := free' }.writeChain r).setPhase t (.opening r)).req u =
      if u = t then some r else s.req u := fun u => req_setPhase u
  refine ⟨?_, ?_, ?_⟩
  · intro u q hq
    have hOld := hSerials.owner u q
    simp only [Blk.setPhase, Blk.writeChain, update_apply]
    grind
  · intro u q hq hDone
    have hOld := hSerials.done u q
    simp only [Blk.setPhase, Blk.writeChain, update_apply] at hDone ⊢
    grind
  · intro u q hReady
    have hOld := hSerials.ready u q
    have hReq := fun h : (s.phase u).IsReady q => hNe u q h.req
    simp only [Blk.setPhase, Blk.writeChain, update_apply] at hReady ⊢
    grind [Phase.IsReady]

theorem Flow.not_mem_of_ready (hFlow : Flow s sent back) (hSerials : Serials s)
    (hReady : (s.phase t).IsReady r) (hOut : s.irq = .out) :
    r.i0 ∉ sent ++ s.device.pending ++ back := by
  intro hMem
  have hFalse := hFlow.running r.i0 (by rw [hOut]; exact hMem)
  rw [hSerials.ready t r hReady] at hFalse
  cases hFalse

theorem Flow.release (hFlow : Flow s sent back) (hSerials : Serials s)
    (hReady : (s.phase t).IsReady r) (hOut : s.irq = .out) {desc : Nat → VirtqDesc} :
    Flow { s.setPhase t p with
      desc := desc
      free := free'
      descWaiters := w } sent back := by
  have hGone := hFlow.not_mem_of_ready hSerials hReady hOut
  refine { hFlow with flying := ?_ }
  intro h hh
  rcases hFlow.flying h hh with ⟨u, q, hq, rfl⟩
  refine ⟨u, q, ?_, rfl⟩
  have hu : u ≠ t := by
    rintro rfl
    have hSame : some q = some r := hq.symm.trans hReady.req
    cases hSame
    exact hGone hh
  exact (req_setPhase_ne hu).trans hq

theorem Serials.release (hSerials : Serials s) (hPhase : p.req = none) {desc : Nat → VirtqDesc} :
    Serials { s.setPhase t p with
      desc := desc
      free := free'
      descWaiters := w } := by
  have hOld : ∀ u q, (s.setPhase t p).req u = some q → s.req u = some q := by
    intro u q hq
    grind
  refine ⟨fun u q hq => hSerials.owner u q (hOld u q hq),
    fun u q hq => hSerials.done u q (hOld u q hq), ?_⟩
  intro u q hReady
  have hWas := hSerials.ready u q
  have hNone := fun h : p.IsReady q => hPhase.symm.trans h.req
  simp only [Blk.setPhase, update_apply] at hReady ⊢
  grind

-- The Device

theorem Flow.fetch (hFlow : Flow s sent back) (hMore : s.device.seen ≠ s.avail.idx) :
    ∃ sent', Flow { s with
      device :=
        { seen := (s.device.seen + 1) % IDX
          pending := s.device.pending ++ [s.avail.cells (s.device.seen % NUM)] } } sent' back := by
  cases sent with
  | nil =>
    have hIdx := hFlow.avail.count
    rw [List.length_nil, Nat.add_zero, Nat.mod_eq_of_lt hFlow.seen] at hIdx
    exact absurd hIdx.symm hMore
  | cons h sent =>
    have hHead := hFlow.avail.head
    have hPerm : ∀ rest : List Nat, (sent ++ (s.device.pending ++ [h]) ++ rest).Perm
          (h :: sent ++ s.device.pending ++ rest) := by
      intro rest
      simp only [List.append_assoc, List.cons_append]
      refine List.Perm.trans ?_ List.perm_middle
      exact List.Perm.append_left _ List.perm_middle
    refine ⟨sent, Nat.mod_lt _ (by decide), hFlow.read,
      hFlow.avail.tail dvd_idx, hFlow.used, ?_, ?_, ?_, hFlow.done, hFlow.irq⟩
    · rw [hHead]
      exact (hPerm back).nodup_iff.mpr hFlow.nodup
    · intro k hk
      rw [hHead] at hk
      exact hFlow.flying k ((hPerm back).mem_iff.mp hk)
    · intro k hk
      rw [hHead] at hk
      exact hFlow.running k ((hPerm _).mem_iff.mp hk)

theorem Flow.complete (hFlow : Flow s sent back) (hTable : Table s) (hMem : id ∈ s.device.pending) :
    Flow { s with
      device :=
        { s.device with
          pending := s.device.pending.erase id }
      statusBytes := update s.statusBytes id status
      used := s.used.push NUM IDX id
      done := s.owner id :: s.done } sent (back ++ [id]) := by
  have hPending := List.perm_cons_erase hMem
  have hPerm : ∀ rest : List Nat, (sent ++ s.device.pending.erase id ++ (rest ++ [id])).Perm
        (sent ++ s.device.pending ++ rest) := by
    intro rest
    rw [List.perm_iff_count]
    intro k
    have hCount := List.perm_iff_count.mp hPending k
    simp only [List.count_append, List.count_cons, List.count_nil] at hCount ⊢
    omega
  -- the ring has room for all heads in flight
  have hRoom : back.length < NUM := by
    have hSub : (id :: back).Sublist (sent ++ s.device.pending ++ back) := by
      rw [List.append_assoc]
      refine List.Sublist.trans ?_ (List.sublist_append_right sent _)
      exact (List.singleton_sublist.mpr hMem).append (List.Sublist.refl back)
    refine length_lt_of_nodup (hFlow.nodup.sublist hSub) ?_
    intro h hh
    exact hFlow.lt hTable (hSub.subset hh)
  have hLonger : back.length ≤ (back ++ [id]).length := by
    rw [List.length_append]
    omega
  refine ⟨hFlow.seen, hFlow.read, hFlow.avail, hFlow.used.push dvd_idx hRoom,
    (hPerm back).nodup_iff.mpr hFlow.nodup, ?_, ?_, ?_, ?_⟩
  · intro h hh
    exact hFlow.flying h ((hPerm back).mem_iff.mp hh)
  · intro h hh
    refine hFlow.running h ((hPerm _).mem_iff.mp ?_)
    have hUnread : ∀ k ∈ s.irq.unread (back ++ [id]), k ∈ s.irq.unread back ++ [id] := by
      intro k hk
      have hIrq := hFlow.irq
      revert hk hIrq
      cases s.irq with
      | stored n j =>
        rintro hk ⟨hHead, _⟩
        cases back with
        | nil => cases hHead
        | cons x xs => exact hk
      | taken n waker =>
        rintro hk ⟨m, hm, hPos, _⟩
        cases back with
        | nil =>
          rw [List.length_nil] at hm
          omega
        | cons x xs => exact hk
      | _ => exact fun hk _ => hk
    rcases List.mem_append.mp hh with hLeft | hRight
    · exact List.mem_append_left _ hLeft
    · exact List.mem_append_right _ (hUnread h hRight)
  · intro h hh
    rcases List.mem_append.mp hh with hOld | hNew
    · exact List.mem_cons_of_mem _ (hFlow.done h hOld)
    · rw [List.mem_singleton.mp hNew]
      exact List.mem_cons_self ..
  · have hIrq := hFlow.irq
    show s.irq.Fits s.usedIdx (back ++ [id])
    revert hIrq
    cases s.irq with
    | out => exact fun _ => trivial
    | drain n =>
      rintro ⟨k, hk, hn⟩
      exact ⟨k, by omega, hn⟩
    | stored n j =>
      rintro ⟨hHead, k, hk, hPos, hn⟩
      refine ⟨?_, k, by omega, hPos, hn⟩
      cases back with
      | nil => cases hHead
      | cons x xs => exact hHead
    | taken n waker =>
      rintro ⟨k, hk, hPos, hn⟩
      exact ⟨k, by omega, hPos, hn⟩

theorem Serials.complete (hSerials : Serials s) :
    Serials { s with
      device :=
        { s.device with
          pending := s.device.pending.erase id }
      statusBytes := update s.statusBytes id status
      used := s.used.push NUM IDX id
      done := s.owner id :: s.done } where
  owner := hSerials.owner
  done t r hr hDone := List.mem_cons_of_mem _ (hSerials.done t r hr hDone)
  ready := hSerials.ready

-- The Interrupt Handler

theorem Flow.irqStart (hFlow : Flow s sent back) (hOut : s.irq = .out) :
    Flow { s with irq := .drain s.used.idx } sent back := by
  refine { hFlow with running := ?_, irq := ?_ }
  · intro h hh
    refine hFlow.running h ?_
    rw [hOut]
    exact hh
  · exact ⟨back.length, Nat.le_refl _, hFlow.used.count⟩

theorem Flow.exists_entry (hFlow : Flow s sent back) (hIrq : s.irq = .drain usedNow)
    (hMore : s.usedIdx ≠ usedNow) : ∃ rest, back = s.used.cells (s.usedIdx % NUM) :: rest ∧
      ∃ k ≤ back.length, 0 < k ∧ usedNow = (s.usedIdx + k) % IDX := by
  have hFits := hFlow.irq
  rw [hIrq] at hFits
  rcases hFits with ⟨k, hk, hn⟩
  have hPos : 0 < k := by
    rcases Nat.eq_zero_or_pos k with rfl | hPos
    · rw [Nat.add_zero, Nat.mod_eq_of_lt hFlow.read] at hn
      exact absurd hn.symm hMore
    · exact hPos
  cases back with
  | nil =>
    rw [List.length_nil] at hk
    omega
  | cons id rest =>
    refine ⟨rest, ?_, k, hk, hPos, hn⟩
    rw [hFlow.used.head]

theorem Flow.irqStore (hFlow : Flow s sent back) (hIrq : s.irq = .drain usedNow)
    (hMore : s.usedIdx ≠ usedNow) :
    Flow { s with
      completed := update s.completed (s.used.cells (s.usedIdx % NUM)) true
      irq := .stored usedNow (s.used.cells (s.usedIdx % NUM)) } sent back := by
  rcases hFlow.exists_entry hIrq hMore with ⟨rest, hBack, hCount⟩
  refine { hFlow with running := ?_, irq := ?_ }
  · intro h hh
    have hRest : h ∈ sent ++ s.device.pending ++ rest := by
      have hTail : h ∈ sent ++ s.device.pending ++ back.tail := hh
      rw [hBack] at hTail
      exact hTail
    have hNodup := hFlow.nodup
    rw [hBack] at hNodup
    have hNe : h ≠ s.used.cells (s.usedIdx % NUM) := by
      rintro rfl
      have hOnce := (List.perm_middle.nodup_iff).mp hNodup
      exact (List.nodup_cons.mp hOnce).1 hRest
    show update s.completed _ true h = false
    rw [update_of_ne hNe]
    refine hFlow.running h ?_
    rw [hIrq]
    rcases List.mem_append.mp hRest with hLeft | hRight
    · exact List.mem_append_left _ hLeft
    · refine List.mem_append_right _ ?_
      show h ∈ back
      rw [hBack]
      exact List.mem_cons_of_mem _ hRight
  · refine ⟨?_, hCount⟩
    rw [hBack]
    rfl

/- The completion that is stored belongs to its request. -/
theorem Serials.irqStore {irq : Irq} (hSerials : Serials s) (hDone : s.owner id ∈ s.done) :
    Serials { s with
      completed := update s.completed id true
      irq := irq } where
  owner := hSerials.owner
  done t r hr hSet := by
    have hOwner := hSerials.owner t r hr
    have hOld := hSerials.done t r hr
    simp only [update_apply] at hSet
    grind
  ready t r hReady := by
    have hOld := hSerials.ready t r hReady
    simp only [update_apply]
    grind

theorem Flow.irqTake {waker : Option Nat} (hFlow : Flow s sent back)
    (hIrq : s.irq = .stored usedNow id) :
    Flow { s with
      wakers := wakers
      irq := .taken usedNow waker } sent back := by
  have hFits := hFlow.irq
  rw [hIrq] at hFits
  refine { hFlow with running := ?_, irq := hFits.2 }
  intro h hh
  refine hFlow.running h ?_
  rw [hIrq]
  exact hh

theorem Flow.irqNext {waker : Option Nat} (hFlow : Flow s sent back)
    (hIrq : s.irq = .taken usedNow waker) :
    ∃ back', Flow { s with
      usedIdx := (s.usedIdx + 1) % IDX
      irq := .drain usedNow
      descWaiters := w } sent back' := by
  have hFits := hFlow.irq
  rw [hIrq] at hFits
  rcases hFits with ⟨k, hk, hPos, hn⟩
  cases back with
  | nil =>
    rw [List.length_nil] at hk
    omega
  | cons id rest =>
    rw [List.length_cons] at hk
    have hSub : (sent ++ s.device.pending ++ rest).Sublist
        (sent ++ s.device.pending ++ id :: rest) :=
      (List.Sublist.refl _).append (List.sublist_cons_self ..)
    refine ⟨rest, hFlow.seen, Nat.mod_lt _ (by decide), hFlow.avail, hFlow.used.tail dvd_idx,
      hFlow.nodup.sublist hSub, fun h hh => hFlow.flying h (hSub.subset hh), ?_,
      fun h hh => hFlow.done h (List.mem_cons_of_mem _ hh), k - 1, by omega, ?_⟩
    · intro h hh
      refine hFlow.running h ?_
      rw [hIrq]
      exact hh
    · rw [hn, Nat.mod_add_mod]
      congr 1
      omega

theorem Flow.irqEnd (hFlow : Flow s sent back) (hIrq : s.irq = .drain usedNow) :
    Flow { s with irq := .out } sent back := by
  refine { hFlow with running := ?_, irq := trivial }
  intro h hh
  refine hFlow.running h ?_
  rw [hIrq]
  exact hh

end VirtioBlk

end PlayXv6
