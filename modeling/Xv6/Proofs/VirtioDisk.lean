import Xv6.Lib.Exclusive
import Xv6.VirtioDisk

/-!
# The disk requests

Every request is on its way around: from the `avail` ring to the device, from the device to the `used` ring,
and from there to the handler (`flight`). No head is in two places, since the chains of the processes are
disjoint (`Chains`), so the rings have room for all of them.
-/

namespace Xv6

open Prog Function

variable {A B : Type} {d d' : Disk B} {c : DiskRw B} {x : DiskIdx} {i j : Nat}

/-! ### Descriptors -/

def DiskIdx.list (x : DiskIdx) : List Nat := [x.i0, x.i1, x.i2]

/-- Three different descriptors. -/
structure DiskIdx.Proper (x : DiskIdx) : Prop where
  lt : ∀ i ∈ x.list, i < NUM
  nodup : x.list.Nodup

theorem DiskIdx.i0_mem (x : DiskIdx) : x.i0 ∈ x.list := List.mem_cons_self

theorem DiskIdx.update_list {β : Type} (x : DiskIdx) (f : Nat → β) (v : β) :
    update (update (update f x.i0 v) x.i1 v) x.i2 v = fun i => if i ∈ x.list then v else f i := by
  funext i
  simp only [update_apply, DiskIdx.list, List.mem_cons, List.not_mem_nil, or_false]
  split_ifs <;> simp_all

def DiskRw.request (c : DiskRw B) (x : DiskIdx) : DiskReq B where
  head := x.i0
  op := ⟨if c.write then VIRTIO_BLK_T_OUT else VIRTIO_BLK_T_IN, 0, Disk.sector c.blockno⟩
  data := c.b
  toDevice := c.write
  status := x.i0

namespace Disk

/-- The descriptors of `x` say what `c` wants. -/
structure Formatted (d : Disk B) (c : DiskRw B) (x : DiskIdx) : Prop where
  desc0 : d.desc x.i0 = ⟨.op x.i0, 16, VRING_DESC_F_NEXT, x.i1⟩
  desc1 : d.desc x.i1 = ⟨.data c.b, 1024, (if c.write then 0 else VRING_DESC_F_WRITE) ||| VRING_DESC_F_NEXT, x.i2⟩
  desc2 : d.desc x.i2 = ⟨.status x.i0, 1, VRING_DESC_F_WRITE, 0⟩
  op : d.ops x.i0 = (c.request x).op
  b : (d.info x.i0).b = some c.b

theorem Formatted.request_eq (h : Formatted d c x) : d.request x.i0 = some (c.request x) := by
  cases hw : c.write <;>
    simp [Disk.request, h.desc0, h.desc1, h.desc2, h.op, hw, DiskRw.request, VRING_DESC_F_NEXT, VRING_DESC_F_WRITE]

theorem Formatted.of_eq (h : Formatted d c x) (hd : ∀ i ∈ x.list, d'.desc i = d.desc i) (ho : d'.ops x.i0 = d.ops x.i0)
    (hb : (d'.info x.i0).b = (d.info x.i0).b) : Formatted d' c x := by
  refine ⟨?_, ?_, ?_, ho.trans h.op, hb.trans h.b⟩
  · rw [hd _ (by simp [DiskIdx.list])]; exact h.desc0
  · rw [hd _ (by simp [DiskIdx.list])]; exact h.desc1
  · rw [hd _ (by simp [DiskIdx.list])]; exact h.desc2

theorem formatted_format (hx : x.Proper) : Formatted (d.format c x) c x := by
  have hnd := hx.nodup
  simp only [DiskIdx.list, List.nodup_cons, List.mem_cons, not_or, List.not_mem_nil,
    not_false_eq_true, List.nodup_nil, and_true] at hnd
  obtain ⟨⟨h01, h02⟩, h12⟩ := hnd
  refine ⟨?_, ?_, ?_, ?_, ?_⟩ <;> simp [Disk.format, h01, h02, h12, DiskRw.request]

/-- `d'` is `d` but for the descriptors that were free: their content and, if `all` are still free, nothing else. -/
structure Scratched (d d' : Disk B) : Prop where
  free : d'.free = d.free
  desc : ∀ i, d.free i = false → d'.desc i = d.desc i
  avail : d'.avail = d.avail
  used : d'.used = d.used
  usedIdx : d'.usedIdx = d.usedIdx
  info : d'.info = d.info
  ops : d'.ops = d.ops

theorem wp_allocDesc {Q : Option Nat → Disk B → Prop}
    (h1 : ∀ i < NUM, d.free i = true → Q (some i) { d with free := update d.free i false })
    (h0 : Q none d) : wp allocDesc Q d := by
  rw [allocDesc, wp_bind, wp_get]
  cases hf : (List.range NUM).find? d.free with
  | none => simp only [wp_pure]; exact h0
  | some i =>
    simp only [wp_bind, wp_modify, wp_pure]
    exact h1 i (List.mem_range.mp (List.mem_of_find?_eq_some hf)) (by simpa using List.find?_some hf)

theorem wp_freeDesc {Q : Unit → Disk B → Prop} (hi : i < NUM) (hf : d.free i = false)
    (h1 : Q () { d with
      desc := update d.desc i ⟨.null, 0, 0, 0⟩
      free := update d.free i true }) : wp (freeDesc i) Q d := by
  rw [freeDesc, if_neg (not_le.mpr hi)]
  simpa [hf] using h1

theorem wp_alloc3Desc {Q : Option DiskIdx → Disk B → Prop}
    (h1 : ∀ x : DiskIdx, x.Proper → (∀ i ∈ x.list, d.free i = true) →
      Q (some x) { d with free := fun i => if i ∈ x.list then false else d.free i })
    (h0 : ∀ d', Scratched d d' → Q none d') : wp alloc3Desc Q d := by
  have hback : ∀ {f : Nat → Bool} {i}, f i = true → update (update f i false) i true = f := by
    intro f i hi
    rw [update_idem, ← hi, update_eq_self]
  rw [alloc3Desc, wp_bind]
  refine wp_allocDesc (fun i0 hi0 hf0 => ?_) (wp_pure.mpr (h0 d ⟨rfl, fun _ _ => rfl, rfl, rfl, rfl, rfl, rfl⟩))
  dsimp only
  rw [wp_bind]
  refine wp_allocDesc (fun i1 hi1 hf1 => ?_) ?_
  · have h01 : i1 ≠ i0 := by
      rintro rfl
      simp at hf1
    simp only [update_of_ne h01] at hf1
    dsimp only
    rw [wp_bind]
    refine wp_allocDesc (fun i2 hi2 hf2 => ?_) ?_
    · have h12 : i2 ≠ i1 := by
        rintro rfl
        simp at hf2
      have h02 : i2 ≠ i0 := by
        rintro rfl
        simp [update_of_ne h12] at hf2
      simp only [update_of_ne h12, update_of_ne h02] at hf2
      rw [wp_pure, DiskIdx.update_list ⟨i0, i1, i2⟩]
      refine h1 ⟨i0, i1, i2⟩ ⟨?_, ?_⟩ ?_ <;> simp [DiskIdx.list, *, Ne.symm h01, Ne.symm h02, Ne.symm h12]
    · -- two were free
      rw [wp_bind]
      refine wp_freeDesc hi0 (by simp [update_of_ne (Ne.symm h01)]) ?_
      rw [wp_bind]
      refine wp_freeDesc hi1 (by simp [update_of_ne h01]) (wp_pure.mpr (h0 _ ⟨?_, fun i hi => ?_, rfl, rfl, rfl, rfl, rfl⟩))
      · show update (update (update (update d.free i0 false) i1 false) i0 true) i1 true = _
        rw [update_comm h01.symm false false d.free, hback (by simp [update_of_ne h01.symm, hf0]), hback hf1]
      · have hne0 : i ≠ i0 := by rintro rfl; simp [hf0] at hi
        have hne1 : i ≠ i1 := by rintro rfl; simp [hf1] at hi
        simp [update_of_ne hne0, update_of_ne hne1]
  · -- one was free
    rw [wp_bind]
    refine wp_freeDesc hi0 (by simp) (wp_pure.mpr (h0 _ ⟨hback hf0, fun i hi => ?_, rfl, rfl, rfl, rfl, rfl⟩))
    have hne0 : i ≠ i0 := by rintro rfl; simp [hf0] at hi
    simp [update_of_ne hne0]

def release (d : Disk B) (x : DiskIdx) : Disk B :=
  { d with
    desc := fun i => if i ∈ x.list then ⟨.null, 0, 0, 0⟩ else d.desc i
    free := fun i => if i ∈ x.list then true else d.free i
    info := Function.update d.info x.i0 { d.info x.i0 with b := none } }

theorem wp_finish {Q : Unit → Disk B → Prop} (h : Formatted d c x) (hx : x.Proper) (hf : ∀ i ∈ x.list, d.free i = false)
    (h1 : Q () (d.release x)) : wp (finish x) Q d := by
  obtain ⟨i0, i1, i2⟩ := x
  have hnd := hx.nodup
  have hlt := hx.lt
  simp only [DiskIdx.list, List.nodup_cons, List.mem_cons, not_or, List.not_mem_nil, or_false, not_false_eq_true,
    List.nodup_nil, and_true] at hnd hlt hf
  obtain ⟨⟨h01, h02⟩, h12⟩ := hnd
  have hd0 := h.desc0
  have hd1 := h.desc1
  have hd2 := h.desc2
  simp only at hd0 hd1 hd2
  have hnext : ((if c.write then 0 else VRING_DESC_F_WRITE) ||| VRING_DESC_F_NEXT) &&& VRING_DESC_F_NEXT ≠ 0 := by
    cases c.write <;> decide
  rw [finish, wp_bind, wp_modify, show NUM = 5 + 1 + 1 + 1 from rfl, freeChain, wp_bind, wp_get]
  dsimp only
  rw [hd0, wp_bind]
  refine wp_freeDesc (hlt i0 (.inl rfl)) (hf i0 (.inl rfl)) ?_
  rw [if_pos (show VRING_DESC_F_NEXT &&& VRING_DESC_F_NEXT ≠ 0 by decide), freeChain, wp_bind, wp_get]
  simp only [update_of_ne (Ne.symm h01)]
  rw [hd1, wp_bind]
  refine wp_freeDesc (hlt i1 (.inr (.inl rfl))) (by simp [Ne.symm h01, hf]) ?_
  rw [if_pos hnext, freeChain, wp_bind, wp_get]
  simp only [update_of_ne (Ne.symm h12), update_of_ne (Ne.symm h02)]
  rw [hd2, wp_bind]
  refine wp_freeDesc (hlt i2 (.inr (.inr rfl))) (by simp [Ne.symm h02, Ne.symm h12, hf]) ?_
  rw [if_neg (show ¬ VRING_DESC_F_WRITE &&& VRING_DESC_F_NEXT ≠ 0 by decide), wp_pure]
  rw [DiskIdx.update_list ⟨i0, i1, i2⟩, DiskIdx.update_list ⟨i0, i1, i2⟩]
  exact h1

end Disk

/-! ### Requests on their way -/

namespace DiskPc

def held : DiskPc B → Option (DiskRw B × DiskIdx)
  | .format c x | .ring c x | .idx c x | .test c x | .sleep c x | .finish c x => some (c, x)
  | .out | .acquire _ | .alloc _ | .release _ | .intr => none

def chain (k : DiskPc B) : List Nat := (k.held.map fun h => h.2.list).getD []

def waiting : DiskPc B → Option (DiskRw B × DiskIdx)
  | .test c x | .sleep c x => some (c, x)
  | _ => none

variable {k : DiskPc B}

theorem held_of_waiting (h : k.waiting = some (c, x)) : k.held = some (c, x) := by
  cases k <;> first | exact h | cases h

theorem call_of_held (h : k.held = some (c, x)) : k.call = some c := by
  cases k <;> cases h <;> rfl

theorem chain_of_held (h : k.held = some (c, x)) : k.chain = x.list := by simp [chain, h]

theorem mem_chain (h : k.held = some (c, x)) (hi : i ∈ x.list) : i ∈ k.chain := by rw [chain_of_held h]; exact hi

end DiskPc

namespace DiskSys

variable {s s' : DiskSys A B} {a a' q : A} {h : Nat} {r : DiskReq B} {k k₀ : DiskPc B}

/-- Heads in the `avail` ring that the device has not taken. -/
def pending (s : DiskSys A B) : List Nat := s.published.drop s.taken

/-- Heads in the `used` ring that the driver has not seen. -/
def unseen (s : DiskSys A B) : List Nat := s.answered.drop s.seen

/-- The heads of requests that have been performed. -/
def ready (s : DiskSys A B) : List Nat := s.dev.done ++ s.dev.putting.toList ++ s.unseen

/-- The heads of all requests that the driver has not been told of. -/
def flight (s : DiskSys A B) : List Nat := s.pending ++ s.dev.busy.map DiskReq.head ++ s.ready

theorem ready_subset (hh : h ∈ s.ready) : h ∈ s.flight := List.mem_append_right _ hh

/-- The descriptors: free, or in one chain. -/
structure Chains (s : DiskSys A B) : Prop where
  free : ∀ i < NUM, s.d.free i = true ↔ ∀ a, i ∉ (s.pc a).chain
  proper : ∀ a c x, (s.pc a).held = some (c, x) → x.Proper
  disjoint : Exclusive fun a i => i ∈ (s.pc a).chain

/-- The calls: one for a buffer at a time. -/
structure Calls (s : DiskSys A B) : Prop where
  buf : Exclusive fun a b => ∃ c, (s.pc a).call = some c ∧ c.b = b
  id : Exclusive fun a n => ∃ c, (s.pc a).call = some c ∧ c.id = n
  lt : ∀ a c, (s.pc a).call = some c → c.id < s.nextId
  fresh : ∀ n r, s.nextId ≤ n → (n, r) ∉ s.performed

/-- The request of `c` has been published, and the process waits. -/
structure Waits (s : DiskSys A B) (c : DiskRw B) (x : DiskIdx) : Prop where
  disk : s.disk c.b = true ↔ x.i0 ∈ s.flight
  req : x.i0 ∈ s.flight → s.req x.i0 = c.id
  status : x.i0 ∈ s.ready → (s.d.info x.i0).status = 0
  performed : x.i0 ∉ s.flight ∨ x.i0 ∈ s.ready → (c.id, c.request x) ∈ s.performed
  once : x.i0 ∈ s.flight → x.i0 ∉ s.ready → ∀ r, (c.id, r) ∉ s.performed

def At (s : DiskSys A B) (a : A) : DiskPc B → Prop
  | .out => True
  | .acquire c => ∀ r, (c.id, r) ∉ s.performed
  | .alloc c | .format c _ => s.lock = some a ∧ ∀ r, (c.id, r) ∉ s.performed
  | .ring c x => s.lock = some a ∧ (∀ r, (c.id, r) ∉ s.performed) ∧ s.d.Formatted c x ∧ s.disk c.b = true
  | .idx c x => s.lock = some a ∧ (∀ r, (c.id, r) ∉ s.performed) ∧ s.d.Formatted c x ∧ s.disk c.b = true ∧
    s.d.avail.ring (s.d.avail.idx % NUM) = x.i0
  | .test c x => s.lock = some a ∧ s.d.Formatted c x ∧ Waits s c x
  | .sleep c x => s.d.Formatted c x ∧ Waits s c x
  | .finish c x => s.lock = some a ∧ s.d.Formatted c x ∧ (c.id, c.request x) ∈ s.performed
  | .release c => s.lock = some a ∧ ∃ x, (c.id, c.request x) ∈ s.performed
  | .intr => s.lock = some a

structure Rings (s : DiskSys A B) : Prop where
  avail : RingHolds NUM (2 ^ 16) s.d.avail.ring s.dev.avail s.d.avail.idx s.published s.taken
  used : RingHolds NUM (2 ^ 16) s.d.used.ring s.d.usedIdx s.d.used.idx s.answered s.seen
  putting : ∀ h, s.dev.putting = some h → s.d.used.ring (s.d.used.idx % NUM) = h

/-- A request under way is the one some process waits for. -/
structure Traffic (s : DiskSys A B) : Prop where
  nodup : s.flight.Nodup
  owner : ∀ h ∈ s.flight, ∃ a c x, (s.pc a).waiting = some (c, x) ∧ x.i0 = h
  busy : ∀ r ∈ s.dev.busy, ∃ a c x, (s.pc a).waiting = some (c, x) ∧ r = c.request x

structure Inv (s : DiskSys A B) : Prop where
  chains : Chains s
  calls : Calls s
  at_ : ∀ a, At s a (s.pc a)
  rings : Rings s
  traffic : Traffic s
  panic : s.panic = none

/-! ### What others do -/

structure Same (s s' : DiskSys A B) (c : DiskRw B) (x : DiskIdx) : Prop where
  formatted : s.d.Formatted c x → s'.d.Formatted c x
  disk : s'.disk c.b = s.disk c.b
  flight : x.i0 ∈ s'.flight ↔ x.i0 ∈ s.flight
  ready : x.i0 ∈ s'.ready ↔ x.i0 ∈ s.ready
  status : (s.d.info x.i0).status = 0 → (s'.d.info x.i0).status = 0
  req : s'.req x.i0 = s.req x.i0
  performed : ∀ r, (c.id, r) ∈ s'.performed ↔ (c.id, r) ∈ s.performed

theorem Same.waits (h : Same s s' c x) (hw : Waits s c x) : Waits s' c x := by
  refine ⟨?_, ?_, ?_, ?_, ?_⟩
  · rw [h.disk, h.flight]; exact hw.disk
  · rw [h.flight, h.req]; exact hw.req
  · rw [h.ready]; exact fun hr => h.status (hw.status hr)
  · rw [h.flight, h.ready, h.performed]; exact hw.performed
  · simp only [h.flight, h.ready, h.performed]; exact hw.once

theorem At.same (h : At s q k) (hl : s.lock = some q → s'.lock = some q)
    (hp : ∀ c, k.call = some c → ∀ r, (c.id, r) ∈ s'.performed ↔ (c.id, r) ∈ s.performed)
    (hx : ∀ c x, k.held = some (c, x) → Same s s' c x) (ha : s.lock = some q → s'.d.avail = s.d.avail) : At s' q k := by
  cases k with
  | out => trivial
  | acquire c => exact fun r => mt (hp c rfl r).mp (h r)
  | alloc c | format c x => exact ⟨hl h.1, fun r => mt (hp c rfl r).mp (h.2 r)⟩
  | ring c x =>
    have hs := hx c x rfl
    exact ⟨hl h.1, fun r => mt (hp c rfl r).mp (h.2.1 r), hs.formatted h.2.2.1, hs.disk.trans h.2.2.2⟩
  | idx c x =>
    have hs := hx c x rfl
    refine ⟨hl h.1, fun r => mt (hp c rfl r).mp (h.2.1 r), hs.formatted h.2.2.1, hs.disk.trans h.2.2.2.1, ?_⟩
    rw [ha h.1]
    exact h.2.2.2.2
  | test c x => exact ⟨hl h.1, (hx c x rfl).formatted h.2.1, (hx c x rfl).waits h.2.2⟩
  | sleep c x => exact ⟨(hx c x rfl).formatted h.1, (hx c x rfl).waits h.2⟩
  | finish c x => exact ⟨hl h.1, (hx c x rfl).formatted h.2.1, (hp c rfl _).mpr h.2.2⟩
  | release c => exact ⟨hl h.1, h.2.imp fun x hx => (hp c rfl _).mpr hx⟩
  | intr => exact hl h

theorem At.of_waits (h : At s a k) (hw : k.waiting = some (c, x)) (hl : s'.lock = s.lock) (hF : s'.d.Formatted c x)
    (hW : Waits s' c x) : At s' a k := by
  cases k with
  | test => cases hw; exact ⟨hl.trans h.1, hF, hW⟩
  | sleep => cases hw; exact ⟨hF, hW⟩
  | _ => cases hw

theorem At.waits (h : At s a k) (hw : k.waiting = some (c, x)) : s.d.Formatted c x ∧ Waits s c x := by
  cases k with
  | test => cases hw; exact h.2
  | sleep => cases hw; exact h
  | _ => cases hw

theorem Chains.of_held (h : Chains s) (hf : s'.d.free = s.d.free) (hh : ∀ q, (s'.pc q).held = (s.pc q).held) :
    Chains s' := by
  have hc : ∀ q, (s'.pc q).chain = (s.pc q).chain := fun q => by rw [DiskPc.chain, DiskPc.chain, hh]
  refine ⟨?_, ?_, ?_⟩
  · simp only [hf, hc]; exact h.free
  · simp only [hh]; exact h.proper
  · simp only [hc]; exact h.disjoint

theorem Calls.of_call (h : Calls s) (hc : ∀ q c, (s'.pc q).call = some c → (s.pc q).call = some c)
    (hn : s'.nextId = s.nextId) (hp : s'.performed = s.performed) : Calls s' :=
  ⟨h.buf.mono fun q _ hb => hb.imp fun c hb => ⟨hc q c hb.1, hb.2⟩,
    h.id.mono fun q _ hb => hb.imp fun c hb => ⟨hc q c hb.1, hb.2⟩,
    fun a c h1 => hn ▸ h.lt a c (hc _ _ h1), by rw [hn, hp]; exact h.fresh⟩

theorem length_le_of_nodup {l : List Nat} {n : Nat} (hnd : l.Nodup) (hlt : ∀ i ∈ l, i < n) : l.length ≤ n := by
  simpa using (List.subperm_of_subset hnd fun i hi => List.mem_range.mpr (hlt i hi)).length_le

theorem not_locked (ha : s.lock = some a) (hq : q ≠ a) : s.lock ≠ some q := by
  rw [ha]
  intro e
  exact hq (Option.some.inj e).symm

section
variable (hinv : Inv s) {c' : DiskRw B} {x' : DiskIdx}
include hinv

theorem Inv.not_mem (ha : (s.pc a).held = some (c, x)) (hq : (s.pc q).held = some (c', x')) (hne : q ≠ a)
    (hi : i ∈ x'.list) : i ∉ x.list := fun hi' =>
  hne (hinv.chains.disjoint q a i (DiskPc.mem_chain hq hi) (DiskPc.mem_chain ha hi'))

theorem Inv.i0_ne (ha : (s.pc a).held = some (c, x)) (hq : (s.pc q).held = some (c', x')) (hne : q ≠ a) :
    x'.i0 ≠ x.i0 := fun e => hinv.not_mem ha hq hne x'.i0_mem (e ▸ x.i0_mem)

theorem Inv.buf_ne (ha : (s.pc a).call = some c) (hq : (s.pc q).call = some c') (hne : q ≠ a) : c'.b ≠ c.b := fun e =>
  hne (hinv.calls.buf q a c.b ⟨c', hq, e⟩ ⟨c, ha, rfl⟩)

theorem Inv.id_ne (ha : (s.pc a).call = some c) (hq : (s.pc q).call = some c') (hne : q ≠ a) : c'.id ≠ c.id := fun e =>
  hne (hinv.calls.id q a c.id ⟨c', hq, e⟩ ⟨c, ha, rfl⟩)

theorem Inv.not_free (ha : (s.pc a).held = some (c, x)) (hi : i ∈ x.list) : s.d.free i = false :=
  Bool.eq_false_iff.mpr fun hf =>
    (hinv.chains.free i ((hinv.chains.proper a c x ha).lt i hi)).mp hf a (DiskPc.mem_chain ha hi)

theorem Inv.not_flight (ha : (s.pc a).held = some (c, x)) (hw : (s.pc a).waiting = none) : x.i0 ∉ s.flight := by
  intro hf
  obtain ⟨q, c', x', hwait, e⟩ := hinv.traffic.owner _ hf
  rcases eq_or_ne q a with rfl | hne
  · rw [hw] at hwait; cases hwait
  · exact hinv.i0_ne ha (DiskPc.held_of_waiting hwait) hne e

theorem Inv.flight_lt (hh : h ∈ s.flight) : h < NUM := by
  obtain ⟨q, c', x', hwait, rfl⟩ := hinv.traffic.owner _ hh
  exact (hinv.chains.proper q c' x' (DiskPc.held_of_waiting hwait)).lt _ x'.i0_mem

theorem Inv.avail_room (ha : (s.pc a).held = some (c, x)) (hw : (s.pc a).waiting = none) :
    s.published.length ≠ s.taken + NUM := by
  have hsub : s.pending.Sublist s.flight := (List.sublist_append_left ..).trans (List.sublist_append_left ..)
  have hnd : (x.i0 :: s.pending).Nodup :=
    List.nodup_cons.mpr ⟨fun hp => hinv.not_flight ha hw (hsub.subset hp), hinv.traffic.nodup.sublist hsub⟩
  have hlen := length_le_of_nodup hnd (n := NUM) fun i hi => by
    rcases List.mem_cons.mp hi with rfl | hi
    · exact (hinv.chains.proper a c x ha).lt _ x.i0_mem
    · exact hinv.flight_lt (hsub.subset hi)
  have := hinv.rings.avail.le
  simp only [pending, List.length_cons, List.length_drop] at hlen
  omega

theorem Inv.used_room (hh : h ∈ s.dev.done ++ s.dev.putting.toList) : s.answered.length ≠ s.seen + NUM := by
  have hnd : (s.dev.done ++ s.dev.putting.toList ++ s.unseen).Nodup :=
    hinv.traffic.nodup.sublist (List.sublist_append_right ..)
  have hnd' : (h :: s.unseen).Nodup :=
    List.nodup_cons.mpr ⟨List.disjoint_of_nodup_append hnd hh, (List.nodup_append.mp hnd).2.1⟩
  have hlen := length_le_of_nodup hnd' (n := NUM) fun i hi => by
    refine hinv.flight_lt (ready_subset ?_)
    rcases List.mem_cons.mp hi with rfl | hi
    · exact List.mem_append_left _ hh
    · exact List.mem_append_right _ hi
  have := hinv.rings.used.le
  simp only [unseen, List.length_cons, List.length_drop] at hlen
  omega

end

theorem NUM_dvd : NUM ∣ 2 ^ 16 := by decide

theorem NUM_lt : NUM < 2 ^ 16 := by decide

theorem Traffic.of_perm (h : Traffic s) (hpc : s'.pc = s.pc) (hperm : s'.flight.Perm s.flight)
    (hbusy : ∀ r ∈ s'.dev.busy, ∃ a c x, (s.pc a).waiting = some (c, x) ∧ r = c.request x) : Traffic s' := by
  refine ⟨hperm.nodup_iff.mpr h.nodup, fun i hi => ?_, ?_⟩
  · rw [hpc]; exact h.owner i (hperm.mem_iff.mp hi)
  · rw [hpc]; exact hbusy

/-- The next entry of the `used` ring: a request that has been performed and that a process waits for. -/
theorem Inv.next_used (h : Inv s) (ne : s.d.usedIdx ≠ s.d.used.idx) : ∃ a c x, (s.pc a).waiting = some (c, x) ∧
    s.d.used.ring (s.d.usedIdx % NUM) = x.i0 ∧ s.unseen = x.i0 :: s.answered.drop (s.seen + 1) ∧
    RingHolds NUM (2 ^ 16) s.d.used.ring ((s.d.usedIdx + 1) % 2 ^ 16) s.d.used.idx s.answered (s.seen + 1) := by
  have hne : s.seen ≠ s.answered.length := mt (h.rings.used.empty_iff NUM_lt).mpr ne
  have hlt : s.seen < s.answered.length := lt_of_le_of_ne h.rings.used.le hne
  obtain ⟨hget, hring⟩ := h.rings.used.get NUM_dvd hne
  have hunseen : s.unseen = s.d.used.ring (s.d.usedIdx % NUM) :: s.answered.drop (s.seen + 1) := by
    rw [unseen, List.drop_eq_getElem_cons hlt]
    rw [List.getElem?_eq_getElem hlt] at hget
    rw [Option.some.inj hget]
  obtain ⟨a, c, x, hwait, e⟩ := h.traffic.owner (s.d.used.ring (s.d.usedIdx % NUM)) (ready_subset (by rw [ready, hunseen]; simp))
  exact ⟨a, c, x, hwait, e.symm, e ▸ hunseen, hring⟩

theorem Inv.init (h : Init s) : Inv s := by
  have hchain : ∀ a, (s.pc a).chain = [] := fun a => by rw [h.pc]; rfl
  have hflight : s.flight = [] := by
    simp [flight, pending, ready, unseen, h.dev, h.published, h.answered]
  refine ⟨⟨fun i hi => ?_, fun a c x hx => ?_, fun a a' i hi => ?_⟩, ⟨fun a a' b hb => ?_, fun a a' n hn => ?_, fun a c hc => ?_,
    fun n r _ hr => ?_⟩, fun a => ?_, ⟨?_, ?_, fun i hi => ?_⟩, ⟨?_, fun i hi => ?_, fun r hr => ?_⟩, h.panic⟩
  · simp [h.free i hi, hchain]
  · rw [h.pc] at hx; cases hx
  · simp only [hchain] at hi; exact absurd hi List.not_mem_nil
  · simp only [h.pc, DiskPc.call] at hb; obtain ⟨c, hc, -⟩ := hb; cases hc
  · simp only [h.pc, DiskPc.call] at hn; obtain ⟨c, hc, -⟩ := hn; cases hc
  · rw [h.pc] at hc; cases hc
  · rw [h.performed] at hr; exact absurd hr List.not_mem_nil
  · rw [h.pc]; trivial
  · rw [h.availIdx, h.dev, h.published, h.taken]; exact .init _
  · rw [h.usedRing, h.usedIdx, h.answered, h.seen]; exact .init _
  · rw [h.dev] at hi; cases hi
  · rw [hflight]; exact List.nodup_nil
  · rw [hflight] at hi; exact absurd hi List.not_mem_nil
  · rw [h.dev] at hr; exact absurd hr List.not_mem_nil

/-! ### Steps of the device -/

/-- A step of the device after which a request is where it was or further on. -/
theorem Inv.device (h : Inv s) (hs : s' = { s with d.used := s'.d.used, dev := s'.dev, taken := s'.taken, answered := s'.answered })
    (hrings : Rings s') (hflight : s'.flight.Perm s.flight) (hready : s'.ready.Perm s.ready)
    (hbusy : ∀ r ∈ s'.dev.busy, ∃ a c x, (s.pc a).waiting = some (c, x) ∧ r = c.request x) : Inv s' := by
  have hpc : s'.pc = s.pc := by rw [hs]
  refine ⟨?_, ?_, fun q => ?_, hrings, h.traffic.of_perm hpc hflight hbusy, by rw [hs]; exact h.panic⟩
  · rw [hs]; exact h.chains.of_held rfl fun _ => rfl
  · rw [hs]; exact h.calls.of_call (fun _ _ => id) rfl rfl
  · rw [hpc]
    refine (h.at_ q).same (by rw [hs]; exact id) (by rw [hs]; exact fun _ _ _ => Iff.rfl) (fun c x _ => ?_)
      (by rw [hs]; exact fun _ => rfl)
    exact ⟨by rw [hs]; exact fun hF => hF.of_eq (fun _ _ => rfl) rfl rfl, by rw [hs], hflight.mem_iff, hready.mem_iff,
      by rw [hs]; exact id, by rw [hs], by rw [hs]; exact fun _ => Iff.rfl⟩

theorem Inv.take (h : Inv s) (ne : s.dev.avail ≠ s.d.avail.idx)
    (read : s.d.request (s.d.avail.ring (s.dev.avail % NUM)) = some r) :
    Inv { s with
      dev.avail := (s.dev.avail + 1) % 2 ^ 16
      dev.busy := s.dev.busy ++ [r]
      taken := s.taken + 1 } := by
  have hne : s.taken ≠ s.published.length := mt (h.rings.avail.empty_iff NUM_lt).mpr ne
  have hlt : s.taken < s.published.length := lt_of_le_of_ne h.rings.avail.le hne
  obtain ⟨hget, hring⟩ := h.rings.avail.get NUM_dvd hne
  generalize s.d.avail.ring (s.dev.avail % NUM) = hd at hget read
  have hpend : s.pending = hd :: s.published.drop (s.taken + 1) := by
    rw [pending, List.drop_eq_getElem_cons hlt]
    rw [List.getElem?_eq_getElem hlt] at hget
    rw [Option.some.inj hget]
  have hmem : hd ∈ s.flight := by rw [flight, hpend]; simp
  obtain ⟨a, c, x, hwait, rfl⟩ := h.traffic.owner hd hmem
  obtain rfl : r = c.request x := by
    rw [((h.at_ a).waits hwait).1.request_eq] at read
    exact (Option.some.inj read).symm
  refine h.device rfl ⟨hring, h.rings.used, h.rings.putting⟩ ?_ (.refl _) ?_
  · rw [flight, flight, hpend]
    show List.Perm (s.published.drop (s.taken + 1) ++ (s.dev.busy ++ [c.request x]).map DiskReq.head ++ s.ready) _
    rw [List.map_append, List.map_singleton, ← List.append_assoc, List.append_assoc _ [_] s.ready]
    exact List.perm_middle
  · intro r hr
    rcases List.mem_append.mp hr with hr | hr
    · exact h.traffic.busy r hr
    · exact ⟨a, c, x, hwait, List.mem_singleton.mp hr⟩

theorem Inv.answer (h : Inv s) {hd : Nat} {l l' : List Nat} (done : s.dev.done = l ++ hd :: l')
    (free : s.dev.putting = none) :
    Inv { s with
      d.used.ring := update s.d.used.ring (s.d.used.idx % NUM) hd
      dev.done := l ++ l'
      dev.putting := some hd } := by
  have hroom := h.used_room (h := hd) (by rw [done]; simp)
  have hready : List.Perm (l ++ l' ++ [hd] ++ s.unseen) s.ready := by
    rw [ready, done, free, Option.toList_none, List.append_nil]
    refine List.Perm.append_right _ ?_
    rw [List.append_assoc]
    exact List.Perm.append_left _ (List.perm_append_singleton ..)
  refine h.device rfl ⟨h.rings.avail, h.rings.used.write NUM_dvd hroom, ?_⟩
    (List.Perm.append_left _ hready) hready h.traffic.busy
  rintro i ⟨⟩
  exact update_self ..

theorem Inv.put (h : Inv s) {hd : Nat} (putting : s.dev.putting = some hd) :
    Inv { s with
      d.used.idx := (s.d.used.idx + 1) % 2 ^ 16
      dev.putting := none
      answered := s.answered ++ [hd] } := by
  have hroom := h.used_room (h := hd) (by rw [putting]; simp)
  have hready : List.Perm (s.dev.done ++ (none : Option Nat).toList ++ (s.answered ++ [hd]).drop s.seen) s.ready := by
    rw [ready, putting, unseen, List.drop_append_of_le_length h.rings.used.le, Option.toList_none, List.append_nil,
      Option.toList_some, List.append_assoc]
    exact List.Perm.append_left _ (List.perm_append_singleton ..)
  refine h.device rfl
    ⟨h.rings.avail, h.rings.used.advance NUM_dvd hroom (h.rings.putting hd putting), fun i hi => by cases hi⟩
    (List.Perm.append_left _ hready) hready h.traffic.busy

theorem Inv.request (h : Inv s) (hwait : (s.pc a).waiting = some (c, x))
    (hs : s' = { s with
      d.info := s'.d.info, d.usedIdx := s'.d.usedIdx, disk := s'.disk, dev := s'.dev, seen := s'.seen, performed := s'.performed })
    (hperf : ∀ n r, n ≠ c.id → ((n, r) ∈ s'.performed ↔ (n, r) ∈ s.performed))
    (hinfo : ∀ i, i ≠ x.i0 → s'.d.info i = s.d.info i) (hb : (s'.d.info x.i0).b = (s.d.info x.i0).b)
    (hdisk : ∀ b, b ≠ c.b → s'.disk b = s.disk b) (hflight : ∀ i, i ≠ x.i0 → (i ∈ s'.flight ↔ i ∈ s.flight))
    (hready : ∀ i, i ≠ x.i0 → (i ∈ s'.ready ↔ i ∈ s.ready)) (hW : Waits s' c x) (hrings : Rings s')
    (htraffic : Traffic s') : Inv s' := by
  have hheld := DiskPc.held_of_waiting hwait
  have hcall := DiskPc.call_of_held hheld
  have hpc : s'.pc = s.pc := by rw [hs]
  have hF : ∀ {c x}, (s'.d.info x.i0).b = (s.d.info x.i0).b → s.d.Formatted c x → s'.d.Formatted c x := fun hb hF =>
    hF.of_eq (by rw [hs]; exact fun _ _ => rfl) (by rw [hs]) hb
  refine ⟨by rw [hs]; exact h.chains.of_held rfl fun _ => rfl, ⟨by rw [hpc]; exact h.calls.buf, by rw [hpc]; exact h.calls.id,
    by rw [hs]; exact h.calls.lt, fun n r hn => ?_⟩, fun q => ?_, hrings, htraffic, by rw [hs]; exact h.panic⟩
  · have hlt := h.calls.lt a c hcall
    rw [hs] at hn
    rw [hperf n r (Nat.ne_of_gt (lt_of_lt_of_le hlt hn))]
    exact h.calls.fresh n r hn
  · rw [hpc]
    rcases eq_or_ne q a with rfl | hqa
    · exact (h.at_ q).of_waits hwait (by rw [hs]) (hF hb ((h.at_ q).waits hwait).1) hW
    · refine (h.at_ q).same (by rw [hs]; exact id) (fun c' hc' r => hperf _ r (h.id_ne hcall hc' hqa)) (fun c' x' hq' => ?_)
        (by rw [hs]; exact fun _ => rfl)
      have hi0 := h.i0_ne hheld hq' hqa
      have hcall' := DiskPc.call_of_held hq'
      exact ⟨hF (by rw [hinfo _ hi0]), hdisk _ (h.buf_ne hcall hcall' hqa), hflight _ hi0, hready _ hi0,
        by rw [hinfo _ hi0]; exact id, by rw [hs], fun r => hperf _ r (h.id_ne hcall hcall' hqa)⟩

theorem Inv.perform (h : Inv s) {l l' : List (DiskReq B)} (busy : s.dev.busy = l ++ r :: l') :
    Inv { s with
      d.info := update s.d.info r.status { s.d.info r.status with status := 0 }
      dev.busy := l ++ l'
      dev.done := r.head :: s.dev.done
      performed := (s.req r.head, r) :: s.performed } := by
  obtain ⟨a, c, x, hwait, rfl⟩ := h.traffic.busy r (by rw [busy]; simp)
  have hW := ((h.at_ a).waits hwait).2
  have hreq : s.req x.i0 = c.id := hW.req (by rw [flight, busy]; simp [DiskRw.request])
  have hflight : List.Perm (s.pending ++ (l ++ l').map DiskReq.head ++ x.i0 :: s.ready) s.flight := by
    rw [flight, busy]
    simp only [List.map_append, List.map_cons, List.append_assoc, List.cons_append]
    exact List.Perm.append_left _ (List.Perm.append_left _ List.perm_middle)
  refine h.request hwait rfl (fun n r hn => ?_) (fun i hi => update_of_ne hi ..) ?_ (fun _ _ => rfl)
    (fun i _ => hflight.mem_iff) (fun i hi => List.mem_cons.trans (or_iff_right hi))
    ⟨hW.disk.trans hflight.mem_iff.symm, fun _ => hreq, fun _ => ?_, fun _ => hreq ▸ List.mem_cons_self,
      fun _ hn => absurd List.mem_cons_self hn⟩
    ⟨h.rings.avail, h.rings.used, h.rings.putting⟩ (h.traffic.of_perm rfl hflight fun r hr => h.traffic.busy r ?_)
  · exact List.mem_cons.trans (or_iff_right fun e => hn ((congrArg Prod.fst e).trans hreq))
  · show (update s.d.info x.i0 { s.d.info x.i0 with status := 0 } x.i0).b = _
    rw [update_self]
  · show (update s.d.info x.i0 { s.d.info x.i0 with status := 0 } x.i0).status = 0
    rw [update_self]
  · rw [busy]
    exact (List.mem_append.mp hr).elim (List.mem_append_left _) fun hr => List.mem_append_right _ (List.mem_cons_of_mem _ hr)

/-! ### The handler -/

/-- A round of the handler does not panic, and finds the buffer of the process that waits. -/
theorem Inv.wp_intrRound (h : Inv s) (ne : s.d.usedIdx ≠ s.d.used.idx) {Q : B → Disk B → Prop}
    (h1 : ∀ a c x, (s.pc a).waiting = some (c, x) → s.d.used.ring (s.d.usedIdx % NUM) = x.i0 →
      s.unseen = x.i0 :: s.answered.drop (s.seen + 1) →
      RingHolds NUM (2 ^ 16) s.d.used.ring ((s.d.usedIdx + 1) % 2 ^ 16) s.d.used.idx s.answered (s.seen + 1) →
      Q c.b { s.d with usedIdx := (s.d.usedIdx + 1) % 2 ^ 16 }) : wp Disk.intrRound Q s.d := by
  obtain ⟨a, c, x, hwait, hid, hunseen, hring⟩ := h.next_used ne
  obtain ⟨hF, hW⟩ := (h.at_ a).waits hwait
  have hstatus := hW.status (by rw [ready, hunseen]; simp)
  rw [Disk.intrRound, wp_bind, wp_get]
  simp only [hid, hstatus, hF.b, ne_eq, not_true_eq_false, if_false]
  simp only [wp_bind, wp_pure, wp_set]
  exact h1 a c x hwait hid hunseen hring

section
variable [DecidableEq B]

theorem Inv.intrRound (h : Inv s) {q₀ : A} {c : DiskRw B} {x : DiskIdx} (hwait : (s.pc q₀).waiting = some (c, x))
    (hunseen : s.unseen = x.i0 :: s.answered.drop (s.seen + 1))
    (hring : RingHolds NUM (2 ^ 16) s.d.used.ring ((s.d.usedIdx + 1) % 2 ^ 16) s.d.used.idx s.answered (s.seen + 1)) :
    Inv { s with
      d.usedIdx := (s.d.usedIdx + 1) % 2 ^ 16
      disk := update s.disk c.b false
      seen := s.seen + 1 } := by
  have hW := ((h.at_ q₀).waits hwait).2
  have hready : s.ready.Perm (x.i0 :: (s.dev.done ++ s.dev.putting.toList ++ s.answered.drop (s.seen + 1))) := by
    rw [ready, hunseen]
    exact List.perm_middle
  have hflight : s.flight.Perm (x.i0 :: (s.pending ++ s.dev.busy.map DiskReq.head ++
      (s.dev.done ++ s.dev.putting.toList ++ s.answered.drop (s.seen + 1)))) :=
    (List.Perm.append_left _ hready).trans List.perm_middle
  obtain ⟨hnot, hnd⟩ := List.nodup_cons.mp (hflight.nodup_iff.mp h.traffic.nodup)
  refine h.request hwait rfl (fun _ _ _ => Iff.rfl) (fun _ _ => rfl) rfl (fun b hb => update_of_ne hb ..)
    (fun i hi => (hflight.mem_iff.trans (List.mem_cons.trans (or_iff_right hi))).symm)
    (fun i hi => (hready.mem_iff.trans (List.mem_cons.trans (or_iff_right hi))).symm)
    ⟨iff_of_false ?_ hnot, fun hi => absurd hi hnot, fun hi => absurd (ready_subset hi) hnot,
      fun _ => hW.performed (.inr (hready.mem_iff.mpr List.mem_cons_self)), fun hi => absurd hi hnot⟩
    ⟨h.rings.avail, hring, h.rings.putting⟩
    ⟨hnd, fun i hi => h.traffic.owner i (hflight.mem_iff.mpr (List.mem_cons_of_mem _ hi)), h.traffic.busy⟩
  show ¬ update s.disk c.b false c.b = true
  rw [update_self]
  exact Bool.false_ne_true

end

variable [DecidableEq A]

section
variable (hpc : s'.pc = Function.update s.pc a k)
include hpc

theorem forall_goto {P : A → DiskPc B → Prop} (hk : P a k) (ho : ∀ q, q ≠ a → P q (s.pc q)) (q : A) : P q (s'.pc q) := by
  rw [hpc]
  rcases eq_or_ne q a with hq | hq
  · rw [hq, update_self]; exact hk
  · rw [update_of_ne hq]; exact ho q hq

theorem Chains.goto (h : Chains s) (hf : s'.d.free = s.d.free) (hk : k.held = (s.pc a).held) : Chains s' :=
  h.of_held hf (forall_goto (P := fun q k => k.held = (s.pc q).held) hpc hk fun _ _ => rfl)

theorem Calls.goto (h : Calls s) (hn : s'.nextId = s.nextId) (hp : s'.performed = s.performed)
    (hk : ∀ c, k.call = some c → (s.pc a).call = some c) : Calls s' :=
  h.of_call (forall_goto (P := fun q k => ∀ c, k.call = some c → (s.pc q).call = some c) hpc hk fun _ _ _ h => h) hn hp

theorem Traffic.goto (h : Traffic s) (hflight : s'.flight = s.flight) (hbusy : s'.dev.busy = s.dev.busy)
    (hk : ∀ c x, (s.pc a).waiting = some (c, x) → k.waiting = some (c, x) ∨ x.i0 ∉ s.flight) : Traffic s' := by
  have hw := forall_goto (P := fun q k => ∀ c x, (s.pc q).waiting = some (c, x) →
    k.waiting = some (c, x) ∨ x.i0 ∉ s.flight) hpc hk fun _ _ _ _ => .inl
  refine ⟨?_, fun h' hh => ?_, fun r hr => ?_⟩
  · rw [hflight]; exact h.nodup
  · rw [hflight] at hh
    obtain ⟨a, c, x, hwait, rfl⟩ := h.owner h' hh
    exact ⟨a, c, x, (hw a c x hwait).resolve_right fun hn => hn hh, rfl⟩
  · rw [hbusy] at hr
    obtain ⟨a, c, x, hwait, rfl⟩ := h.busy r hr
    refine ⟨a, c, x, (hw a c x hwait).resolve_right fun hn => hn ?_, rfl⟩
    exact List.mem_append_left _ (List.mem_append_right _ (List.mem_map.mpr ⟨_, hr, rfl⟩))

end

theorem Waits.goto {l : Option A} (h : Waits s c x) : Waits { s.goto a k with lock := l } c x :=
  ⟨h.disk, h.req, h.status, h.performed, h.once⟩

/-- A step of `a` from `k₀` to `k` that leaves the requests alone, and what the others have. -/
theorem Inv.proc {d : Disk B} {disk : B → Bool} {l : Option A} (h : Inv s) (pc : s.pc a = k₀)
    (hchains : Chains { s.goto a k with d, disk, lock := l }) (hcall : ∀ c, k.call = some c → k₀.call = some c)
    (hwait : ∀ c x, k₀.waiting = some (c, x) → k.waiting = some (c, x) ∨ x.i0 ∉ s.flight)
    (hrings : Rings { s.goto a k with d, disk, lock := l })
    (hk : At s a k₀ → At { s.goto a k with d, disk, lock := l } a k)
    (hl : ∀ q, q ≠ a → s.lock = some q → l = some q ∧ d.avail = s.d.avail)
    (hx : ∀ q c x, q ≠ a → (s.pc q).held = some (c, x) → (s.d.Formatted c x → d.Formatted c x) ∧
      disk c.b = s.disk c.b ∧ ((s.d.info x.i0).status = 0 → (d.info x.i0).status = 0)) :
    Inv { s.goto a k with d, disk, lock := l } := by
  subst pc
  refine ⟨hchains, h.calls.goto rfl rfl rfl hcall, forall_goto (a := a) (k := k) (P := At _) rfl (hk (h.at_ a)) fun q hq => ?_,
    hrings, h.traffic.goto rfl rfl rfl hwait, h.panic⟩
  refine (h.at_ q).same (fun hq' => (hl q hq hq').1) (fun _ _ _ => Iff.rfl) (fun c x hq' => ?_) fun hq' => (hl q hq hq').2
  obtain ⟨h1, h2, h3⟩ := hx q c x hq hq'
  exact ⟨h1, h2, Iff.rfl, Iff.rfl, h3, rfl, fun _ => Iff.rfl⟩

theorem Inv.control (h : Inv s) (pc : s.pc a = k₀) (l : Option A) (hl : ∀ q, q ≠ a → s.lock = some q → l = some q)
    (hheld : k.held = k₀.held) (hcall : ∀ c, k.call = some c → k₀.call = some c)
    (hwait : ∀ c x, k₀.waiting = some (c, x) → k.waiting = some (c, x) ∨ x.i0 ∉ s.flight)
    (hk : At s a k₀ → At { s.goto a k with lock := l } a k) : Inv { s.goto a k with lock := l } :=
  h.proc pc (h.chains.goto rfl rfl (by rw [pc]; exact hheld)) hcall hwait ⟨h.rings.avail, h.rings.used, h.rings.putting⟩ hk
    (fun q hq hq' => ⟨hl q hq hq', rfl⟩) fun _ _ _ _ _ => ⟨id, rfl, id⟩

/-! ### Steps of the driver -/

theorem Inv.call (h : Inv s) {b : B} {blockno : Nat} {write : Bool} (pc : s.pc a = .out)
    (locked : ∀ a' c, (s.pc a').call = some c → c.b ≠ b) :
    Inv { s.goto a (.acquire ⟨s.nextId, b, blockno, write⟩) with nextId := s.nextId + 1 } := by
  have hself : ∀ {c}, (update s.pc a (.acquire ⟨s.nextId, b, blockno, write⟩) a).call = some c →
      c = ⟨s.nextId, b, blockno, write⟩ := by
    intro c hc
    rw [update_self] at hc
    exact (Option.some.inj hc).symm
  have hother : ∀ {q}, q ≠ a → update s.pc a (.acquire ⟨s.nextId, b, blockno, write⟩) q = s.pc q :=
    fun hq => update_of_ne hq ..
  refine ⟨h.chains.goto rfl rfl (by rw [pc]; rfl),
    ⟨h.calls.buf.step (i := a) (fun q hq b' hb => hother hq ▸ hb) fun b' hb => .inr fun q _ hq => ?_,
      h.calls.id.step (i := a) (fun q hq n hn => hother hq ▸ hn) fun n hn => .inr fun q _ hq => ?_,
      fun q c hc => ?_, fun n r hn => h.calls.fresh n r (Nat.le_of_succ_le hn)⟩,
    forall_goto (a := a) (k := .acquire _) (P := At _) rfl (fun r => h.calls.fresh _ r (le_rfl)) fun q hq => ?_,
    ⟨h.rings.avail, h.rings.used, h.rings.putting⟩, h.traffic.goto rfl rfl rfl (by rw [pc]; intro c x e; cases e), h.panic⟩
  · obtain ⟨c, hc, rfl⟩ := hb
    obtain ⟨c', hc', e⟩ := hq
    rw [hself hc] at e
    exact locked q c' hc' e
  · obtain ⟨c, hc, rfl⟩ := hn
    obtain ⟨c', hc', e⟩ := hq
    rw [hself hc] at e
    exact absurd (h.calls.lt q c' hc') (by rw [e]; exact lt_irrefl _)
  · rcases eq_or_ne q a with rfl | hq
    · rw [hself hc]; exact Nat.lt_succ_self _
    · exact Nat.lt_succ_of_lt (h.calls.lt q c (hother hq ▸ hc))
  · exact (h.at_ q).same id (fun _ _ _ => Iff.rfl) (fun _ _ _ => ⟨id, rfl, Iff.rfl, Iff.rfl, id, rfl, fun _ => Iff.rfl⟩)
      fun _ => rfl

/-- The descriptors of `x` change hands: `a` goes to `k`, where it holds those and no others. -/
theorem Chains.take (h : Chains s) (hpc : s'.pc = update s.pc a k) (hold : (s.pc a).held = none)
    (hk : k.held = some (c, x)) (hx : x.Proper) (hf : ∀ i ∈ x.list, s.d.free i = true)
    (hf' : s'.d.free = fun i => if i ∈ x.list then false else s.d.free i) : Chains s' := by
  have hself : s'.pc a = k := by rw [hpc, update_self]
  have hother : ∀ {q}, q ≠ a → s'.pc q = s.pc q := fun hq => by rw [hpc, update_of_ne hq]
  have hchain : k.chain = x.list := DiskPc.chain_of_held hk
  have hnil : (s.pc a).chain = [] := by simp [DiskPc.chain, hold]
  refine ⟨fun i hi => ?_, fun q c' x' hq => ?_, h.disjoint.step (i := a) (fun q hq i hi => hother hq ▸ hi)
    fun i hi => .inr fun q _ hq => ?_⟩
  · rw [hf']
    by_cases hi' : i ∈ x.list
    · simp only [if_pos hi', Bool.false_eq_true, false_iff, not_forall, not_not]
      exact ⟨a, by rw [hself, hchain]; exact hi'⟩
    · simp only [if_neg hi']
      rw [h.free i hi]
      refine forall_congr' fun q => ?_
      rcases eq_or_ne q a with rfl | hq
      · rw [hself, hchain, hnil]; exact ⟨fun _ => hi', fun _ => List.not_mem_nil⟩
      · rw [hother hq]
  · rcases eq_or_ne q a with rfl | hne
    · rw [hself, hk] at hq
      cases hq
      exact hx
    · exact h.proper q c' x' (hother hne ▸ hq)
  · simp only [hself, hchain] at hi
    exact (h.free i (hx.lt i hi)).mp (hf i hi) q hq

theorem Chains.giveBack (h : Chains s) (hpc : s'.pc = update s.pc a k) (hold : (s.pc a).held = some (c, x))
    (hk : k.held = none) (hf' : s'.d.free = fun i => if i ∈ x.list then true else s.d.free i) : Chains s' := by
  have hself : s'.pc a = k := by rw [hpc, update_self]
  have hother : ∀ {q}, q ≠ a → s'.pc q = s.pc q := fun hq => by rw [hpc, update_of_ne hq]
  have hnil : k.chain = [] := by simp [DiskPc.chain, hk]
  refine ⟨fun i hi => ?_, fun q c' x' hq => ?_, h.disjoint.step (i := a) (fun q hq i hi => hother hq ▸ hi) fun i hi => ?_⟩
  · rw [hf']
    by_cases hi' : i ∈ x.list
    · simp only [if_pos hi', true_iff]
      intro q hq
      rcases eq_or_ne q a with rfl | hne
      · rw [hself, hnil] at hq; exact List.not_mem_nil hq
      · rw [hother hne] at hq
        exact hne (h.disjoint q a i hq (DiskPc.mem_chain hold hi'))
    · simp only [if_neg hi']
      rw [h.free i hi]
      refine forall_congr' fun q => ?_
      rcases eq_or_ne q a with rfl | hq
      · rw [hself, hnil, DiskPc.chain_of_held hold]; exact ⟨fun _ => List.not_mem_nil, fun _ => hi'⟩
      · rw [hother hq]
  · rcases eq_or_ne q a with rfl | hne
    · rw [hself, hk] at hq; cases hq
    · exact h.proper q c' x' (hother hne ▸ hq)
  · simp only [hself, hnil] at hi
    exact absurd hi List.not_mem_nil

theorem Inv.alloc (h : Inv s) (pc : s.pc a = .alloc c) (hx : x.Proper) (hf : ∀ i ∈ x.list, s.d.free i = true) :
    Inv { s.goto a (.format c x) with d.free := fun i => if i ∈ x.list then false else s.d.free i } :=
  h.proc pc (h.chains.take rfl (by rw [pc]; rfl) rfl hx hf rfl) (fun _ => id) (fun _ _ e => by cases e)
    ⟨h.rings.avail, h.rings.used, h.rings.putting⟩ id (fun _ _ hl => ⟨hl, rfl⟩) fun _ _ _ _ _ =>
      ⟨fun hF => hF.of_eq (fun _ _ => rfl) rfl rfl, rfl, id⟩

theorem Inv.allocSleep (h : Inv s) {d : Disk B} (pc : s.pc a = .alloc c) (hd : s.d.Scratched d) :
    Inv { s.goto a (.acquire c) with d, lock := none } := by
  have hat : At s a (.alloc c) := pc ▸ h.at_ a
  refine h.proc pc (h.chains.goto rfl hd.free (by rw [pc]; rfl)) (fun _ => id) (fun _ _ e => by cases e) ?_ And.right
    (fun q hq hl => absurd hl (not_locked hat.1 hq)) fun q c' x' _ hq' => ⟨fun hF => ?_, rfl, by rw [hd.info]; exact id⟩
  · refine ⟨?_, ?_, ?_⟩ <;> simp only [hd.avail, hd.used, hd.usedIdx]
    exacts [h.rings.avail, h.rings.used, h.rings.putting]
  · exact hF.of_eq (fun i hi => hd.desc i (h.not_free hq' hi)) (by rw [hd.ops]) (by rw [hd.info])

theorem Inv.ring (h : Inv s) (pc : s.pc a = .ring c x) :
    Inv { s.goto a (.idx c x) with d.avail.ring := update s.d.avail.ring (s.d.avail.idx % NUM) x.i0 } := by
  have hat : At s a (.ring c x) := pc ▸ h.at_ a
  have hroom := h.avail_room (a := a) (c := c) (x := x) (by rw [pc]; rfl) (by rw [pc]; rfl)
  refine h.proc pc (h.chains.goto rfl rfl (by rw [pc]; rfl)) (fun _ => id) (fun _ _ e => by cases e)
    ⟨h.rings.avail.write NUM_dvd hroom, h.rings.used, h.rings.putting⟩ (fun ⟨hlock, hnew, hF, hdisk⟩ => ?_)
    (fun q hq hl => absurd hl (not_locked hat.1 hq)) fun _ _ _ _ _ => ⟨fun hF => hF.of_eq (fun _ _ => rfl) rfl rfl, rfl, id⟩
  exact ⟨hlock, hnew, hF.of_eq (fun _ _ => rfl) rfl rfl, hdisk, update_self ..⟩

theorem Inv.idx (h : Inv s) (pc : s.pc a = .idx c x) :
    Inv { s.goto a (.test c x) with
      d.avail.idx := (s.d.avail.idx + 1) % 2 ^ 16
      published := s.published ++ [x.i0]
      req := update s.req x.i0 c.id } := by
  have hat : At s a (.idx c x) := pc ▸ h.at_ a
  obtain ⟨hlock, hnew, hF, hdisk, hcell⟩ := hat
  have hheld : (s.pc a).held = some (c, x) := by rw [pc]; rfl
  have hwait : (s.pc a).waiting = none := by rw [pc]; rfl
  have hroom := h.avail_room hheld hwait
  have hnot := h.not_flight hheld hwait
  have hflight : List.Perm ((s.published ++ [x.i0]).drop s.taken ++ s.dev.busy.map DiskReq.head ++ s.ready)
      (x.i0 :: s.flight) := by
    rw [flight, pending, List.drop_append_of_le_length h.rings.avail.le, List.append_assoc, List.append_assoc,
      List.append_assoc]
    exact List.perm_middle
  have hin := hflight.mem_iff.mpr List.mem_cons_self
  have hnr : x.i0 ∉ s.ready := fun hr => hnot (ready_subset hr)
  have hother : ∀ q c' x', (s.pc q).waiting = some (c', x') →
      (update s.pc a (.test c x) q).waiting = some (c', x') := fun q c' x' hq => by
    rw [update_of_ne]
    · exact hq
    · rintro rfl
      rw [hwait] at hq
      cases hq
  refine ⟨h.chains.goto rfl rfl hheld.symm, h.calls.goto rfl rfl rfl (by rw [pc]; exact fun _ h => h),
    forall_goto (a := a) (k := .test c x) (P := At _) rfl ⟨hlock, hF.of_eq (fun _ _ => rfl) rfl rfl,
      ⟨fun _ => hin, fun _ => hdisk⟩, fun _ => update_self .., fun hr => absurd hr hnr,
      fun hr => (hr.elim (fun hn => hn hin) hnr).elim, fun _ _ => hnew⟩ fun q hq => ?_,
    ⟨h.rings.avail.advance NUM_dvd hroom hcell, h.rings.used, h.rings.putting⟩,
    ⟨hflight.nodup_iff.mpr (List.nodup_cons.mpr ⟨hnot, h.traffic.nodup⟩), fun i hi => ?_, fun r hr => ?_⟩, h.panic⟩
  · refine (h.at_ q).same (fun hl => absurd hl (not_locked hlock hq)) (fun _ _ _ => Iff.rfl) (fun c' x' hq' => ?_)
      fun hl => absurd hl (not_locked hlock hq)
    have hi0 := h.i0_ne hheld hq' hq
    exact ⟨fun hF => hF.of_eq (fun _ _ => rfl) rfl rfl, rfl, hflight.mem_iff.trans (List.mem_cons.trans (or_iff_right hi0)),
      Iff.rfl, id, update_of_ne hi0 .., fun _ => Iff.rfl⟩
  · rcases List.mem_cons.mp (hflight.mem_iff.mp hi) with rfl | hi
    · refine ⟨a, c, x, ?_, rfl⟩
      show (update s.pc a (.test c x) a).waiting = some (c, x)
      rw [update_self]
      rfl
    · obtain ⟨q, c', x', hq, e⟩ := h.traffic.owner i hi
      exact ⟨q, c', x', hother q c' x' hq, e⟩
  · obtain ⟨q, c', x', hq, e⟩ := h.traffic.busy r hr
    exact ⟨q, c', x', hother q c' x' hq, e⟩

theorem Inv.finish (h : Inv s) (pc : s.pc a = .finish c x) :
    Inv { s.goto a (.release c) with d := s.d.release x } := by
  have hheld : (s.pc a).held = some (c, x) := by rw [pc]; rfl
  refine h.proc pc (h.chains.giveBack rfl hheld rfl rfl) (fun _ => id) (fun _ _ e => by cases e)
    ⟨h.rings.avail, h.rings.used, h.rings.putting⟩ (fun hat => ⟨hat.1, x, hat.2.2⟩) (fun _ _ hl => ⟨hl, rfl⟩)
    fun q c' x' hq hq' => ?_
  have hinfo : (s.d.release x).info x'.i0 = s.d.info x'.i0 := update_of_ne (h.i0_ne hheld hq' hq) ..
  rw [hinfo]
  exact ⟨fun hF => hF.of_eq (fun i hi => if_neg (h.not_mem hheld hq' hq hi)) rfl (by rw [hinfo]), rfl, id⟩

variable [DecidableEq B]

theorem Inv.format (h : Inv s) (pc : s.pc a = .format c x) :
    Inv { s.goto a (.ring c x) with d := s.d.format c x, disk := update s.disk c.b true } := by
  have hheld : (s.pc a).held = some (c, x) := by rw [pc]; rfl
  refine h.proc pc (h.chains.goto rfl rfl hheld.symm) (fun _ => id) (fun _ _ e => by cases e)
    ⟨h.rings.avail, h.rings.used, h.rings.putting⟩ (fun hat => ⟨hat.1, hat.2,
      Disk.formatted_format (h.chains.proper a c x hheld), update_self ..⟩) (fun _ _ hl => ⟨hl, rfl⟩)
    fun q c' x' hq hq' => ?_
  have hi0 := h.i0_ne hheld hq' hq
  have hinfo : (s.d.format c x).info x'.i0 = s.d.info x'.i0 := update_of_ne hi0 ..
  rw [hinfo]
  refine ⟨fun hF => hF.of_eq (fun i hi => ?_) (update_of_ne hi0 ..) (by rw [hinfo]),
    update_of_ne (h.buf_ne (DiskPc.call_of_held hheld) (DiskPc.call_of_held hq') hq) .., id⟩
  have hi' := h.not_mem hheld hq' hq hi
  simp only [DiskIdx.list, List.mem_cons, not_or, List.not_mem_nil, not_false_eq_true, and_true] at hi'
  obtain ⟨h0, h1, h2⟩ := hi'
  simp [Disk.format, h0, h1, h2]

theorem Inv.step (h : Inv s) {ret : Option (DiskRw B)} (hst : Step s ret s') : Inv s' := by
  have hmine : ∀ {a : A} {l : Option A}, s.lock = some a → ∀ q, q ≠ a → s.lock = some q → l = some q :=
    fun ha q hq hl => absurd hl (not_locked ha hq)
  cases hst with
  | call b blockno write pc locked => exact h.call pc locked
  | @acquire a c pc free =>
    refine h.control pc _ (fun q _ hq => ?_) rfl (fun _ h => h) (fun _ _ e => by cases e) fun hat => ⟨rfl, hat⟩
    rw [free] at hq; cases hq
  | @alloc a c x d pc run =>
    exact (Disk.wp_alloc3Desc (Q := fun r d => r = some x → Inv { s.goto a (.format c x) with d })
      (fun x' hx hf e => by cases e; exact h.alloc pc hx hf) fun d _ e => by cases e).of_eq run rfl
  | @allocSleep a c d pc run =>
    exact (Disk.wp_alloc3Desc (Q := fun r d => r = none → Inv { s.goto a (.acquire c) with d, lock := none })
      (fun x' _ _ e => by cases e) fun d hd _ => h.allocSleep pc hd).of_eq run rfl
  | allocPanic pc run =>
    obtain ⟨x, d, hok, -⟩ := Disk.wp_alloc3Desc (d := s.d) (Q := fun _ _ => True) (fun _ _ _ => trivial) fun _ _ => trivial
    rw [hok] at run; cases run
  | format pc => exact h.format pc
  | ring pc => exact h.ring pc
  | idx pc => exact h.idx pc
  | @sleep a c x pc disk =>
    have hat : At s a (.test c x) := pc ▸ h.at_ a
    exact h.control pc _ (hmine hat.1) rfl (fun _ h => h) (fun _ _ e => .inl e) fun hat =>
      ⟨hat.2.1, hat.2.2.goto⟩
  | @wake a c x pc free =>
    refine h.control pc _ (fun q _ hq => ?_) rfl (fun _ h => h) (fun _ _ e => .inl e) fun hat =>
      ⟨rfl, hat.1, hat.2.goto⟩
    rw [free] at hq; cases hq
  | @exit a c x pc disk =>
    have hat : At s a (.test c x) := pc ▸ h.at_ a
    have hnot : x.i0 ∉ s.flight := fun hi => Bool.noConfusion (disk.symm.trans (hat.2.2.disk.mpr hi))
    refine h.control pc s.lock (fun _ _ h => h) rfl (fun _ h => h) (fun c' x' e => ?_) fun hat =>
      ⟨hat.1, hat.2.1, hat.2.2.performed (.inl hnot)⟩
    cases e
    exact .inr hnot
  | @finish a c x d pc run =>
    have hat : At s a (.finish c x) := pc ▸ h.at_ a
    have hheld : (s.pc a).held = some (c, x) := by rw [pc]; rfl
    exact (Disk.wp_finish (Q := fun _ d => Inv { s.goto a (.release c) with d }) hat.2.1 (h.chains.proper a c x hheld)
      (fun i hi => h.not_free hheld hi) (h.finish pc)).of_eq run
  | @finishPanic a c x e pc run =>
    have hat : At s a (.finish c x) := pc ▸ h.at_ a
    have hheld : (s.pc a).held = some (c, x) := by rw [pc]; rfl
    obtain ⟨_, d, hok, -⟩ := Disk.wp_finish (Q := fun _ _ => True) hat.2.1 (h.chains.proper a c x hheld)
      (fun i hi => h.not_free hheld hi) trivial
    rw [hok] at run; cases run
  | @release a c pc =>
    have hat : At s a (.release c) := pc ▸ h.at_ a
    exact h.control pc _ (hmine hat.1) rfl (fun _ e => by cases e) (fun _ _ e => by cases e) fun _ => trivial
  | @intr a pc free =>
    refine h.control pc _ (fun q _ hq => ?_) rfl (fun _ h => h) (fun _ _ e => by cases e) fun _ => rfl
    rw [free] at hq; cases hq
  | @intrRound a b d pc ne run =>
    exact (h.wp_intrRound ne (Q := fun b d => Inv { s with d, disk := update s.disk b false, seen := s.seen + 1 })
      fun a' c x hw _ hu hr => h.intrRound hw hu hr).of_eq run
  | intrPanic pc ne run =>
    obtain ⟨_, d, hok, -⟩ := h.wp_intrRound ne (Q := fun _ _ => True) fun _ _ _ _ _ _ _ => trivial
    rw [hok] at run; cases run
  | @intrReturn a pc eq =>
    have hat : At s a .intr := pc ▸ h.at_ a
    exact h.control pc _ (hmine hat) rfl (fun _ h => h) (fun _ _ e => by cases e) fun _ => trivial
  | take ne read => exact h.take ne read
  | perform busy => exact h.perform busy
  | answer done free => exact h.answer done free
  | put putting => exact h.put putting

theorem Inv.reach (h : Reachable s) : Inv s :=
  Trans.Reach.inv (P := Inv) (fun _ => init) (fun _ _ h hst => h.step hst.choose_spec) h

/-! ### The protocol -/

/-- Every descriptor is free or in one chain of three; the driver does not panic; what is in a ring is still in
its cell when it is looked at, also when the indices wrap; the device finds the request of a process at
every head; `virtio_disk_rw` returns when its request has been performed; while it waits, its request is under
way as long as `b->disk` is set, and one that has been performed is on its way to the handler, which
clears `b->disk` of the buffer of that request. -/
theorem disk_protocol (h : Reachable s) :
    (∀ i < NUM, (s.d.free i = true ∧ ∀ a, i ∉ (s.pc a).chain) ∨ (s.d.free i = false ∧ ∃! a, i ∈ (s.pc a).chain)) ∧
    (∀ a c x, (s.pc a).held = some (c, x) → x.Proper) ∧
    s.panic = none ∧
    RingHolds NUM (2 ^ 16) s.d.avail.ring s.dev.avail s.d.avail.idx s.published s.taken ∧
    RingHolds NUM (2 ^ 16) s.d.used.ring s.d.usedIdx s.d.used.idx s.answered s.seen ∧
    (∀ i ∈ s.pending, ∃ a c x, (s.pc a).waiting = some (c, x) ∧ s.d.request i = some (c.request x)) ∧
    (∀ c s', Step s (some c) s' → ∃ x, (c.id, c.request x) ∈ s.performed) ∧
    (∀ a c x, (s.pc a).waiting = some (c, x) → (s.disk c.b = true ↔ x.i0 ∈ s.flight) ∧
      ((c.id, c.request x) ∈ s.performed ↔ s.disk c.b = false ∨ x.i0 ∈ s.ready)) ∧
    ∀ b d, s.d.usedIdx ≠ s.d.used.idx → Disk.intrRound s.d = .ok (b, d) → ∃ a c x, (s.pc a).waiting = some (c, x) ∧
      s.d.used.ring (s.d.usedIdx % NUM) = x.i0 ∧ c.b = b ∧ (c.id, c.request x) ∈ s.performed := by
  have hinv := Inv.reach h
  refine ⟨fun i hi => ?_, hinv.chains.proper, hinv.panic, hinv.rings.avail, hinv.rings.used, fun i hi => ?_, fun c s' hst => ?_,
    fun a c x hw => ?_, fun b d ne run => ?_⟩
  · cases hf : s.d.free i with
    | true => exact .inl ⟨rfl, (hinv.chains.free i hi).mp hf⟩
    | false =>
      have hex : ∃ a, i ∈ (s.pc a).chain := by
        by_contra hno
        rw [(hinv.chains.free i hi).mpr fun a ha => hno ⟨a, ha⟩] at hf
        cases hf
      obtain ⟨a, ha⟩ := hex
      exact .inr ⟨rfl, a, ha, fun a' ha' => hinv.chains.disjoint a' a i ha' ha⟩
  · obtain ⟨a, c, x, hw, rfl⟩ := hinv.traffic.owner i (List.mem_append_left _ (List.mem_append_left _ hi))
    exact ⟨a, c, x, hw, ((hinv.at_ a).waits hw).1.request_eq⟩
  · generalize hret : some c = ret at hst
    cases hst with
    | @release a c' pc =>
      cases hret
      have hat : At s a (.release c) := pc ▸ hinv.at_ a
      exact hat.2
    | _ => cases hret
  · obtain ⟨-, hW⟩ := (hinv.at_ a).waits hw
    refine ⟨hW.disk, fun hp => ?_, fun hor => hW.performed ?_⟩
    · by_contra hno
      rw [not_or, Bool.not_eq_false] at hno
      exact hW.once (hW.disk.mp hno.1) hno.2 _ hp
    · exact hor.imp (fun hd hi => Bool.noConfusion (hd.symm.trans (hW.disk.mpr hi))) id
  · refine (hinv.wp_intrRound ne (Q := fun b _ => ∃ a c x, (s.pc a).waiting = some (c, x) ∧
      s.d.used.ring (s.d.usedIdx % NUM) = x.i0 ∧ c.b = b ∧ (c.id, c.request x) ∈ s.performed)
      fun a c x hw hid hunseen _ => ⟨a, c, x, hw, hid, rfl, ?_⟩).of_eq run
    exact ((hinv.at_ a).waits hw).2.performed (.inr (by rw [ready, hunseen]; simp))

/-- A read that is published and waits for the device. -/
theorem disk_protocol_published : ∃ s : DiskSys Bool Unit, Reachable s ∧ 0 ∈ s.pending ∧
    ∃ a c x, (s.pc a).waiting = some (c, x) ∧ s.d.request 0 = some (c.request x) := by
  let s₀ : DiskSys Bool Unit :=
    { d := ⟨fun _ => ⟨.null, 0, 0, 0⟩, ⟨0, fun _ => 0⟩, ⟨0, fun _ => 0⟩, fun _ => true, 0, fun _ => ⟨none, 0⟩, fun _ => ⟨0, 0, 0⟩⟩
      disk := fun _ => false, lock := none, pc := fun _ => .out, dev := ⟨0, [], [], none⟩, panic := none, nextId := 0
      published := [], taken := 0, answered := [], seen := 0, req := fun _ => 0, performed := [] }
  have h0 : Reachable s₀ := .of_init ⟨fun _ _ => rfl, rfl, rfl, rfl, rfl, fun _ => rfl, rfl, rfl, rfl, rfl, rfl, rfl, rfl⟩
  have h1 := h0.tail ⟨_, .call (a := true) () 5 false rfl fun a c hc => by cases hc⟩
  have h2 := h1.tail ⟨_, .acquire (a := true) rfl rfl⟩
  have h3 := h2.tail ⟨_, .alloc (a := true) rfl rfl⟩
  have h4 := h3.tail ⟨_, .format (a := true) rfl⟩
  have h5 := h4.tail ⟨_, .ring (a := true) rfl⟩
  have h6 := h5.tail ⟨_, .idx (a := true) rfl⟩
  have h7 := h6.tail ⟨_, .sleep (a := true) rfl rfl⟩
  have hp : 0 ∈ ([0] : List Nat) := List.mem_singleton_self 0
  exact ⟨_, h7, hp, (disk_protocol h7).2.2.2.2.2.1 0 hp⟩

end DiskSys

end Xv6
