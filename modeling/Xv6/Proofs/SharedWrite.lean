import Xv6.Lib.Exclusive
import Xv6.Proofs.FsFile
import Xv6.SharedWrite

/-!
# Writes through a shared descriptor append

As long as every `writei` writes its chunk, the file is what it was, followed by the chunks in the order in which the
inode was locked for them: `f->off` lags behind the size only between `writei` and `iunlock`, where the others are kept out
by the lock of the inode (`owed`).
-/

namespace Xv6

open Prog Fs Function

variable {sb : Super} {inum : Nat}

/-! ### One chunk -/

namespace Fs

variable {s : Fs} {ip : Inode} {src : Src} {n : Nat}

theorem patch_at_end (old new : List UInt8) : patch old old.length new = old ++ new := by
  rw [patch, List.take_length, List.drop_eq_nil_of_le (Nat.le_add_right ..), List.append_nil]

theorem length_contents (data : Nat → Bytes) (ip : Inode) : (contents data ip).length = ip.size := by
  rw [contents, bytes, List.length_map, List.length_range]

/-- The file has grown by the first `n` bytes of the source. -/
structure Appended (sb : Super) (inum : Nat) (src : Src) (n : Nat) (s : Fs) (ip : Inode) (s' : Fs) (ip' : Inode) : Prop where
  readable : ∀ k < n, (src.byte k).isSome
  size : ip'.size = ip.size + n
  contents : contents s'.data ip' = Fs.contents s.data ip ++ src.take n
  valid : Valid sb s'.data (nodes sb s'.data inum ip')
  alloc : Alloc sb (nodes sb s'.data inum ip') inum

theorem Writing.appended {s₁ : Fs} {ip' : Inode} (hw : Writing sb (nodes sb s.data inum ip) inum src ip.size n s s₁ ip' n)
    (hv : Valid sb s.data (nodes sb s.data inum ip)) (hi : Alloc sb (nodes sb s.data inum ip) inum) :
    Appended sb inum src n s ip (s₁.updated sb inum (grown ip' (ip.size + n))) (grown ip' (ip.size + n)) := by
  have hp := hw.patched hv hi (le_rfl)
  have hhole := hw.noHole hv hi
  have hcontents := hw.contents_eq hv hi
  rw [nodes_self] at hhole hcontents
  refine ⟨hp.readable, ?_, ?_, hp.valid, hp.alloc⟩
  · rw [hp.size, Nat.max_eq_right (Nat.le_add_right ..)]
  · rw [(hw.sameFile hi).contents_eq (hhole (le_rfl)), hcontents (le_rfl)]
    conv_lhs => rw [← length_contents s.data ip]
    exact patch_at_end ..

theorem wp_writei_append (hv : Valid sb s.data (nodes sb s.data inum ip)) (hi : Alloc sb (nodes sb s.data inum ip) inum)
    (hn : n < 2 ^ 32) : wp (writei sb inum ip src ip.size n) (fun r s' => r.1 = n → Appended sb inum src n s ip s' r.2) s := by
  have hsize := (hv.noHole inum hi).size_le
  rw [nodes_self] at hsize
  have hmax : MAXFILE * BSIZE < 2 ^ 32 := by decide
  by_cases hrej : ip.size > ip.size ∨ ip.size + n ≥ 2 ^ 32 ∨ ip.size + n > MAXFILE * BSIZE
  · exact wp_writei_reject (by omega) hn hrej fun h => by omega
  · refine wp_writei hv.owned hi (nodes_self ..) (by omega) (by omega) fun tot ip' s₁ hw h => ?_
    have h : tot = n := Int.ofNat.inj h
    cases hw with
    | all hw => exact hw.appended hv hi
    | full hw hlt => omega
    | fault hw _ hc => omega

end Fs

/-! ### Calls and chunks -/

def pieces (l : List UInt8) : List (List UInt8) :=
  if l = [] then [] else l.take Writer.maxChunk :: pieces (l.drop Writer.maxChunk)
termination_by l.length
decreasing_by
  have := List.length_pos_iff.mpr ‹l ≠ []›
  simp only [List.length_drop, Writer.maxChunk, MAXOPBLOCKS, BSIZE]
  omega

namespace WriteCall

variable {c : WriteCall} {i : Nat}

def text (c : WriteCall) : List UInt8 := (List.range c.n.toInt.toNat).map fun k => (pageByte c.pages (c.addr + k)).getD 0

theorem length_text (c : WriteCall) : c.text.length = c.n.toInt.toNat := by
  rw [text, List.length_map, List.length_range]

theorem maxChunk_pos : 0 < Writer.maxChunk := by decide

theorem chunkLen_eq (h : i ≤ c.text.length) : c.chunkLen i = min Writer.maxChunk (c.text.length - i) := by
  rw [length_text] at h ⊢
  have := maxChunk_pos
  rw [chunkLen]
  split <;> omega

theorem chunkLen_lt (c : WriteCall) : c.chunkLen i < 2 ^ 32 := by
  have := c.n.toInt_lt
  have hmax : Writer.maxChunk < 2 ^ 32 := by decide
  rw [chunkLen]
  split <;> omega

theorem text_drop (c : WriteCall) (i : Nat) : c.text.drop i =
    (List.range (c.text.length - i)).map fun k => (pageByte c.pages (c.addr + i + k)).getD 0 := by
  refine List.ext_getElem? fun k => ?_
  rw [List.getElem?_drop, length_text, text, List.getElem?_map, List.getElem?_map]
  by_cases hk : i + k < c.n.toInt.toNat
  · rw [List.getElem?_range hk, List.getElem?_range (by omega), Option.map_some, Option.map_some, add_assoc]
  · rw [List.getElem?_eq_none (by rw [List.length_range]; omega), List.getElem?_eq_none (by rw [List.length_range]; omega),
      Option.map_none, Option.map_none]

theorem pieces_drop (h : i < c.text.length) : pieces (c.text.drop i) =
    (List.range (c.chunkLen i)).map (fun k => (pageByte c.pages (c.addr + i + k)).getD 0) :: pieces (c.text.drop (i + c.chunkLen i)) := by
  have hlen := chunkLen_eq (le_of_lt h)
  have hne : c.text.drop i ≠ [] := fun e => by
    have := List.drop_eq_nil_iff.mp e
    omega
  have hdrop : c.text.drop (i + Writer.maxChunk) = c.text.drop (i + c.chunkLen i) := by
    by_cases hmax : Writer.maxChunk ≤ c.text.length - i
    · rw [hlen, Nat.min_eq_left hmax]
    · rw [List.drop_eq_nil_of_le (by omega), List.drop_eq_nil_of_le (by omega)]
  rw [pieces, if_neg hne, List.drop_drop, hdrop, text_drop c i, List.map_take.symm, List.take_range, ← hlen]

theorem pieces_nil : pieces [] = [] := by rw [pieces, if_pos rfl]

/-- The pieces are not longer than a chunk, and make up the list. -/
theorem pieces_spec (l : List UInt8) : (pieces l).flatten = l ∧ ∀ b ∈ pieces l, b.length ≤ 3 * BSIZE := by
  fun_induction pieces l with
  | case1 => exact ⟨rfl, fun b hb => absurd hb List.not_mem_nil⟩
  | case2 l hne ih =>
    refine ⟨?_, fun b hb => ?_⟩
    · rw [List.flatten_cons, ih.1, List.take_append_drop]
    · rcases List.mem_cons.mp hb with rfl | hb
      · exact List.length_take_le _ _
      · exact ih.2 b hb

end WriteCall

def WritePc.call : WritePc → Option Nat
  | .out => none
  | .loop id _ _ | .locked id _ _ | .wrote id _ _ _ | .ret id _ _ => some id

def WritePc.owed : WritePc → Nat
  | .wrote _ _ _ r => r.toNat
  | _ => 0

namespace SharedFile

variable {P : Type} {s s' : SharedFile P} {p q : P} {id i : Nat} {c : WriteCall} {k : WritePc}

def chunksOf (s : SharedFile P) (id : Nat) : List (List UInt8) := (s.chunks.filter (·.1 = id)).map Prod.snd

def owed (s : SharedFile P) : Nat := s.lock.elim 0 fun p => (s.pc p).owed

/-- Call `id` has written its first `i` bytes. -/
structure Doing (s : SharedFile P) (id : Nat) (c : WriteCall) (i : Nat) : Prop where
  call : s.calls[id]? = some c
  le : i ≤ c.text.length
  chunks : s.chunksOf id ++ pieces (c.text.drop i) = pieces c.text
  readable : ∀ k < i, (pageByte c.pages (c.addr + k)).isSome

def At (s : SharedFile P) (p : P) : WritePc → Prop
  | .out => True
  | .loop id c i => Doing s id c i
  | .locked id c i => s.lock = some p ∧ Doing s id c i ∧ i < c.text.length
  | .wrote id c i r => s.lock = some p ∧ r = c.chunkLen i ∧ Doing s id c (i + c.chunkLen i)
  | .ret id c i => Doing s id c i ∧ i = c.text.length

/-- All of the call has been written. -/
structure Complete (s : SharedFile P) (id : Nat) (c : WriteCall) : Prop where
  chunks : s.chunksOf id = pieces c.text
  readable : ∀ k < c.n.toInt.toNat, (pageByte c.pages (c.addr + k)).isSome

/-- The other processes keep the file system in order, and leave the open file and what is in it alone. -/
structure LeavesFile (sb : Super) (inum : Nat) (w w' : World) : Prop where
  ip : w'.ip = w.ip
  off : w'.off = w.off
  contents : contents w'.data w.ip = Fs.contents w.data w.ip
  valid : Valid sb w'.data (nodes sb w'.data inum w.ip)

structure Inv (sb : Super) (inum : Nat) (old : List UInt8) (s : SharedFile P) : Prop where
  valid : Valid sb s.world.data (nodes sb s.world.data inum s.world.ip)
  alloc : Alloc sb (nodes sb s.world.data inum s.world.ip) inum
  contents : contents s.world.data s.world.ip = old ++ (s.chunks.map Prod.snd).flatten
  off : s.world.off + s.owed = s.world.ip.size
  at_ : ∀ p, At s p (s.pc p)
  call : Exclusive fun p id => (s.pc p).call = some id
  lt : ∀ p id, (s.pc p).call = some id → id < s.calls.length
  known : ∀ x ∈ s.chunks, x.1 < s.calls.length
  complete : ∀ id c, s.calls[id]? = some c → (∃ p, (s.pc p).call = some id) ∨ Complete s id c

theorem Doing.congr (h : Doing s id c i) (hcalls : s.calls <+: s'.calls) (hchunks : s'.chunksOf id = s.chunksOf id) :
    Doing s' id c i := by
  refine ⟨?_, h.le, by rw [hchunks]; exact h.chunks, h.readable⟩
  obtain ⟨rest, hrest⟩ := hcalls
  rw [← hrest, List.getElem?_append_left (List.getElem?_eq_some_iff.mp h.call).1]
  exact h.call

/-- What `q` knows stays when others act on calls of theirs. -/
theorem At.congr (h : At s q k) (hcalls : s.calls <+: s'.calls) (hchunks : ∀ id, k.call = some id → s'.chunksOf id = s.chunksOf id)
    (hlock : s.lock = some q → s'.lock = some q) : At s' q k := by
  cases k with
  | out => trivial
  | loop id c i => exact Doing.congr h hcalls (hchunks id rfl)
  | locked id c i => exact ⟨hlock h.1, h.2.1.congr hcalls (hchunks id rfl), h.2.2⟩
  | wrote id c i r => exact ⟨hlock h.1, h.2.1, h.2.2.congr hcalls (hchunks id rfl)⟩
  | ret id c i => exact ⟨h.1.congr hcalls (hchunks id rfl), h.2⟩

variable {old : List UInt8}

section
variable [DecidableEq P]

theorem owed_update {pc : P → WritePc} {lock : Option P} (hk : k.owed = (pc p).owed) :
    (lock.elim 0 fun q => (update pc p k q).owed) = lock.elim 0 fun q => (pc q).owed := by
  cases lock with
  | none => rfl
  | some q =>
    by_cases hq : q = p
    · subst hq
      rw [Option.elim_some, Option.elim_some, update_self, hk]
    · rw [Option.elim_some, Option.elim_some, update_of_ne hq]

namespace Inv

section

variable (h : Inv sb inum old s)
include h

theorem advance (hpc : s'.pc = update s.pc p k) (hk : k.call = (s.pc p).call)
    (hcalls : s'.calls = s.calls) (hchunks : ∀ id, (s.pc p).call ≠ some id → s'.chunksOf id = s.chunksOf id)
    (hknown : ∀ x ∈ s'.chunks, x.1 < s.calls.length) (hlock : ∀ q, q ≠ p → s.lock = some q → s'.lock = some q) (hat : At s' p k)
    (hvalid : Valid sb s'.world.data (nodes sb s'.world.data inum s'.world.ip))
    (halloc : Alloc sb (nodes sb s'.world.data inum s'.world.ip) inum)
    (hcontents : Fs.contents s'.world.data s'.world.ip = old ++ (s'.chunks.map Prod.snd).flatten)
    (hoff : s'.world.off + s'.owed = s'.world.ip.size) : Inv sb inum old s' := by
  have hcall : ∀ q, (s'.pc q).call = (s.pc q).call := by
    intro q
    rw [hpc]
    by_cases hq : q = p
    · rw [hq, update_self, hk]
    · rw [update_of_ne hq]
  refine ⟨hvalid, halloc, hcontents, hoff, fun q => ?_, h.call.mono fun q id hq => hcall q ▸ hq,
    fun q id hq => by rw [hcalls]; exact h.lt q id (hcall q ▸ hq), by rw [hcalls]; exact hknown, fun id c hc => ?_⟩
  · by_cases hq : q = p
    · rw [hpc, hq, update_self]
      exact hat
    · rw [hpc, update_of_ne hq]
      refine (h.at_ q).congr (by rw [hcalls]) (fun id hid => hchunks id fun hp => hq (h.call q p id hid hp)) (hlock q hq)
  · rw [hcalls] at hc
    rcases h.complete id c hc with ⟨q, hq⟩ | hdone
    · exact .inl ⟨q, (hcall q).trans hq⟩
    · by_cases hp : (s.pc p).call = some id
      · exact .inl ⟨p, (hcall p).trans hp⟩
      · exact .inr ⟨(hchunks id hp).trans hdone.chunks, hdone.readable⟩

omit [DecidableEq P] in
theorem at_of_pc (pc : s.pc p = k) : At s p k := by
  have := h.at_ p
  rwa [pc] at this

omit [DecidableEq P] in
theorem other {w : World} (hw : LeavesFile sb inum s.world w) : Inv sb inum old { s with world := w } := by
  refine ⟨?_, ?_, ?_, ?_, fun p => (h.at_ p).congr (List.prefix_refl _) (fun _ _ => rfl) id, h.call, h.lt, h.known,
    fun id c hc => (h.complete id c hc).imp_right fun hd => ⟨hd.chunks, hd.readable⟩⟩
  · rw [hw.ip]
    exact hw.valid
  · rw [hw.ip]
    exact alloc_nodes h.alloc rfl
  · rw [hw.ip, hw.contents]
    exact h.contents
  · show w.off + s.owed = _
    rw [hw.off, hw.ip]
    exact h.off

omit [DecidableEq P] in
theorem chunksOf_new : s.chunksOf s.calls.length = [] := by
  rw [chunksOf, List.filter_eq_nil_iff.mpr fun x hx => by simpa using ne_of_lt (h.known x hx)]
  rfl

theorem enter (c : WriteCall) (pc : s.pc p = .out) :
    Inv sb inum old { s.goto p (.loop s.calls.length c 0) with calls := s.calls ++ [c] } := by
  have hlen : (s.calls ++ [c]).length = s.calls.length + 1 := List.length_append
  have hself : update s.pc p (.loop s.calls.length c 0) p = .loop s.calls.length c 0 := update_self ..
  have hother : ∀ q, q ≠ p → update s.pc p (.loop s.calls.length c 0) q = s.pc q := fun q hq => update_of_ne hq ..
  have hcall : ∀ q id, (update s.pc p (.loop s.calls.length c 0) q).call = some id →
      q = p ∧ id = s.calls.length ∨ q ≠ p ∧ (s.pc q).call = some id := by
    intro q id hq
    by_cases hqp : q = p
    · subst hqp
      rw [hself] at hq
      exact .inl ⟨rfl, (Option.some.inj hq).symm⟩
    · rw [hother q hqp] at hq
      exact .inr ⟨hqp, hq⟩
  refine ⟨h.valid, h.alloc, h.contents, ?_, fun q => ?_, ?_, fun q id hq => ?_, fun x hx => ?_, fun id c' hc => ?_⟩
  · show s.world.off + (s.lock.elim 0 fun q => (update s.pc p _ q).owed) = _
    rw [owed_update (by rw [pc]; rfl)]
    exact h.off
  · show At _ q (update s.pc p _ q)
    by_cases hq : q = p
    · subst hq
      rw [hself]
      exact ⟨List.getElem?_concat_length, Nat.zero_le _, by rw [List.drop_zero]; exact congrArg (· ++ _) h.chunksOf_new,
        fun k hk => absurd hk (Nat.not_lt_zero k)⟩
    · rw [hother q hq]
      exact (h.at_ q).congr (List.prefix_append ..) (fun _ _ => rfl) fun hl => hl
  · refine h.call.step (i := p) (fun q hq id hid => ?_) fun id hid => .inr fun q _ hq' => ?_
    · rcases hcall q id hid with ⟨he, -⟩ | ⟨-, hid⟩
      · exact absurd he hq
      · exact hid
    · rcases hcall p id hid with ⟨-, rfl⟩ | ⟨hne, -⟩
      · exact lt_irrefl _ (h.lt q _ hq')
      · exact hne rfl
  · show id < (s.calls ++ [c]).length
    rcases hcall q id hq with ⟨-, rfl⟩ | ⟨-, hq⟩
    · omega
    · have := h.lt q id hq
      omega
  · have := h.known x hx
    show x.1 < (s.calls ++ [c]).length
    omega
  · rcases lt_or_ge id s.calls.length with hlt | hge
    · have hc : (s.calls ++ [c])[id]? = some c' := hc
      rw [List.getElem?_append_left hlt] at hc
      refine (h.complete id c' hc).imp (fun hp => ?_) fun hd => ⟨hd.chunks, hd.readable⟩
      obtain ⟨q, hq⟩ := hp
      refine ⟨q, ?_⟩
      show (update s.pc p _ q).call = some id
      rw [hother q fun e => by rw [e, pc] at hq; cases hq]
      exact hq
    · have := (List.getElem?_eq_some_iff.mp hc).1
      refine .inl ⟨p, ?_⟩
      show (update s.pc p _ p).call = some id
      rw [hself]
      exact congrArg some (by dsimp only at this; omega)

theorem leave (pc : s.pc p = .ret id c i) : Inv sb inum old (s.goto p .out) := by
  obtain ⟨hd, rfl⟩ : Doing s id c i ∧ i = c.text.length := h.at_of_pc pc
  have hcomplete : Complete s id c := by
    have := hd.chunks
    rw [List.drop_length, WriteCall.pieces_nil, List.append_nil] at this
    exact ⟨this, by rw [← c.length_text]; exact hd.readable⟩
  have hcall : ∀ q id, (update s.pc p .out q).call = some id → q ≠ p ∧ (s.pc q).call = some id := by
    intro q id hq
    by_cases hqp : q = p
    · rw [hqp, update_self] at hq
      cases hq
    · rw [update_of_ne hqp] at hq
      exact ⟨hqp, hq⟩
  refine ⟨h.valid, h.alloc, h.contents, ?_, fun q => ?_, h.call.mono fun q id hq => (hcall q id hq).2,
    fun q id hq => h.lt q id (hcall q id hq).2, h.known, fun id' c' hc => ?_⟩
  · show s.world.off + (s.lock.elim 0 fun q => (update s.pc p _ q).owed) = _
    rw [owed_update (by rw [pc]; rfl)]
    exact h.off
  · show At _ q (update s.pc p _ q)
    by_cases hq : q = p
    · rw [hq, update_self]
      trivial
    · rw [update_of_ne hq]
      exact (h.at_ q).congr (List.prefix_refl _) (fun _ _ => rfl) fun hl => hl
  · rcases h.complete id' c' hc with ⟨q, hq⟩ | hd'
    · by_cases hqp : q = p
      · rw [hqp, pc] at hq
        obtain rfl := Option.some.inj hq
        obtain rfl := Option.some.inj (hd.call.symm.trans hc)
        exact .inr ⟨hcomplete.chunks, hcomplete.readable⟩
      · refine .inl ⟨q, ?_⟩
        show (update s.pc p _ q).call = some id'
        rw [update_of_ne hqp]
        exact hq
    · exact .inr ⟨hd'.chunks, hd'.readable⟩

theorem write {r : Int} {ip : Inode} {t : Fs} {b : List UInt8} {failed : Bool} (pc : s.pc p = .locked id c i)
    (hb : b = (List.range (c.chunkLen i)).map fun k => (pageByte c.pages (c.addr + i + k)).getD 0) (hr : r = c.chunkLen i)
    (happ : s.world.off = s.world.ip.size →
      Appended sb inum (.user c.pages (c.addr + i)) (c.chunkLen i) ⟨s.world.data, []⟩ s.world.ip t ip) :
    Inv sb inum old { s.goto p (.wrote id c i r) with
      world := ⟨t.data, ip, s.world.off⟩, chunks := s.chunks ++ [(id, b)], failed := failed } := by
  obtain ⟨hlock, hd, hlt⟩ : s.lock = some p ∧ Doing s id c i ∧ i < c.text.length := h.at_of_pc pc
  have hoff := h.off
  rw [owed, hlock, Option.elim_some, pc] at hoff
  have happ := happ hoff
  have hcall : (s.pc p).call = some id := by rw [pc]; rfl
  have hchunk : ∀ id', ((s.chunks ++ [(id, b)]).filter (·.1 = id')).map Prod.snd = s.chunksOf id' ++ if id = id' then [b] else [] := by
    intro id'
    rw [List.filter_append, List.map_append, chunksOf]
    by_cases he : id = id' <;> simp [he]
  have hlen := WriteCall.chunkLen_eq hd.le
  refine h.advance (p := p) rfl hcall.symm rfl (fun id' hne => ?_) (fun x hx => ?_) (fun _ _ hl => hl) ⟨hlock, hr, ?_⟩
    happ.valid happ.alloc ?_ ?_
  · have hid : id ≠ id' := fun e => hne (e ▸ hcall)
    rw [chunksOf, hchunk, if_neg hid, List.append_nil]
  · rcases List.mem_append.mp hx with hx | hx
    · exact h.known x hx
    · rw [List.mem_singleton.mp hx]
      exact h.lt p id hcall
  · refine ⟨hd.call, by omega, ?_, fun k hk => ?_⟩
    · rw [chunksOf, hchunk, if_pos rfl, ← hd.chunks, WriteCall.pieces_drop hlt, ← hb, List.append_assoc]
      rfl
    · rcases lt_or_ge k i with hki | hki
      · exact hd.readable k hki
      · have := happ.readable (k - i) (by omega)
        rwa [Src.byte, add_assoc, Nat.add_sub_cancel' hki] at this
  · show Fs.contents t.data ip = old ++ ((s.chunks ++ [(id, b)]).map Prod.snd).flatten
    rw [happ.contents, h.contents, List.map_append, List.flatten_append, List.append_assoc, hb]
    simp only [List.map_cons, List.map_nil, List.flatten_cons, List.flatten_nil, List.append_nil]
    rfl
  · show s.world.off + (s.lock.elim 0 fun q => (update s.pc p _ q).owed) = ip.size
    rw [hlock, Option.elim_some, update_self, happ.size, ← hoff, WritePc.owed, hr, Int.toNat_natCast]
    rfl

theorem step (hs : Step sb inum (LeavesFile sb inum) s s') (hok : s'.failed = false) : Inv sb inum old s' := by
  cases hs with
  | other hw => exact h.other hw
  | call c pc => exact h.enter c pc
  | ret pc => exact h.leave pc
  | @ilock p id c i pc more free =>
    have hd : Doing s id c i := h.at_of_pc pc
    have hfree : s.owed = 0 := by rw [owed, free]; rfl
    refine h.advance (p := p) rfl (by rw [pc]; rfl) rfl (fun _ _ => rfl) h.known (fun q _ hq => by rw [free] at hq; cases hq)
      ⟨rfl, hd.congr (List.prefix_refl _) rfl, ?_⟩ h.valid h.alloc h.contents ?_
    · rw [WriteCall.length_text]
      omega
    · show s.world.off + (update s.pc p _ p).owed = _
      have := h.off
      rw [hfree] at this
      rw [update_self]
      exact this
  | @writei p id c i r ip t pc run =>
    obtain ⟨-, hr⟩ := Bool.or_eq_false_iff.mp hok
    have hr : r = c.chunkLen i := by simpa using hr
    refine h.write pc (by rw [hr, Int.toNat_natCast]) hr fun hoff => ?_
    rw [hoff] at run
    exact (wp_writei_append h.valid h.alloc c.chunkLen_lt).of_eq run hr
  | @iunlock p id c i r pc =>
    obtain ⟨hlock, hr, hd⟩ : s.lock = some p ∧ r = c.chunkLen i ∧ Doing s id c (i + c.chunkLen i) := h.at_of_pc pc
    have hoff := h.off
    rw [owed, hlock, Option.elim_some, pc, WritePc.owed] at hoff
    have hk : (if r ≠ c.chunkLen i then WritePc.ret id c i else .loop id c (i + r.toNat)) = .loop id c (i + c.chunkLen i) := by
      rw [if_neg (not_not_intro hr), hr, Int.toNat_natCast]
    rw [hk]
    refine h.advance (p := p) rfl (by rw [pc]; rfl) rfl (fun _ _ => rfl) h.known
      (fun q hq hl => absurd (Option.some.inj (hl.symm.trans hlock)) hq) (hd.congr (List.prefix_refl _) rfl)
      h.valid h.alloc h.contents ?_
    show (if r > 0 then s.world.off + r.toNat else s.world.off) + 0 = s.world.ip.size
    split <;> omega
  | @stop p id c i pc all =>
    have hd : Doing s id c i := h.at_of_pc pc
    have hle := hd.le
    refine h.advance (p := p) rfl (by rw [pc]; rfl) rfl (fun _ _ => rfl) h.known (fun _ _ hl => hl)
      ⟨hd.congr (List.prefix_refl _) rfl, ?_⟩ h.valid h.alloc h.contents ?_
    · rw [WriteCall.length_text] at hle ⊢
      omega
    · show s.world.off + (s.lock.elim 0 fun q => (update s.pc p _ q).owed) = _
      rw [owed_update (by rw [pc]; rfl)]
      exact h.off

end

omit [DecidableEq P] in
theorem init {w : World} (hv : Valid sb w.data (nodes sb w.data inum w.ip)) (hi : Alloc sb (nodes sb w.data inum w.ip) inum)
    (hoff : w.off = w.ip.size) (h : Init w s) : Inv sb inum (Fs.contents w.data w.ip) s := by
  obtain ⟨rfl, hlock, hpc, hcalls, hchunks, -⟩ := h
  refine ⟨hv, hi, ?_, ?_, fun p => ?_, fun p q id hp => ?_, fun p id hp => ?_, fun x hx => ?_, fun id c hc => ?_⟩
  · rw [hchunks]
    exact (List.append_nil _).symm
  · rw [owed, hlock]
    exact hoff
  · rw [hpc]
    trivial
  · have hp : (s.pc p).call = some id := hp
    rw [hpc] at hp
    cases hp
  · rw [hpc] at hp
    cases hp
  · rw [hchunks] at hx
    cases hx
  · rw [hcalls] at hc
    cases hc

end Inv

theorem failed_of_step {keep : World → World → Prop} (hs : Step sb inum keep s s') (h : s'.failed = false) : s.failed = false := by
  cases hs with
  | writei pc run => exact (Bool.or_eq_false_iff.mp h).1
  | _ => exact h

/-- In every interleaving of any calls of `filewrite` on one open file, none of which fails: the file is what it was, followed
by the chunks, and those of a call that has returned are the pieces of its bytes, in order. At the end the offset is the
size. -/
theorem shared_writes_merge {P : Type} [DecidableEq P] {sb : Super} {inum : Nat} {w : World} {s : SharedFile P}
    (hv : Valid sb w.data (nodes sb w.data inum w.ip)) (hi : Alloc sb (nodes sb w.data inum w.ip) inum) (hoff : w.off = w.ip.size)
    (h : Reachable sb inum (LeavesFile sb inum) w s) (hok : s.failed = false) :
    contents s.world.data s.world.ip = contents w.data w.ip ++ (s.chunks.map Prod.snd).flatten ∧
    (∀ x ∈ s.chunks, x.1 < s.calls.length) ∧
    (∀ id c, s.calls[id]? = some c → (∀ p, (s.pc p).call ≠ some id) → s.chunksOf id = pieces c.text ∧
      (pieces c.text).flatten = c.text ∧ (∀ b ∈ pieces c.text, b.length ≤ 3 * BSIZE) ∧
      ∀ k < c.n.toInt.toNat, (pageByte c.pages (c.addr + k)).isSome) ∧
    ((∀ p, s.pc p = .out) → s.world.off = s.world.ip.size) := by
  have hinv : s.failed = false → Inv sb inum (contents w.data w.ip) s :=
    Trans.Reach.inv (P := fun s => s.failed = false → Inv sb inum (contents w.data w.ip) s) (fun _ h _ => .init hv hi hoff h)
      (fun _ _ h hs hok => (h (failed_of_step hs hok)).step hs hok) h
  have hinv := hinv hok
  refine ⟨hinv.contents, hinv.known, fun id c hc hp => ?_, fun hout => ?_⟩
  · rcases hinv.complete id c hc with ⟨p, hp'⟩ | hd
    · exact absurd hp' (hp p)
    · exact ⟨hd.chunks, (WriteCall.pieces_spec _).1, (WriteCall.pieces_spec _).2, hd.readable⟩
  · rw [← hinv.off, owed]
    cases s.lock with
    | none => rfl
    | some p =>
      rw [Option.elim_some, hout]
      rfl

/-- An open file of no bytes, and two processes. -/
def twoWriters : SharedFile Bool := ⟨⟨tinyFs.data, emptyFile, 0⟩, none, fun _ => .out, [], [], false⟩

/-- Each process writes one byte, the second to have called first. -/
theorem shared_writes_merge_one : ∃ s : SharedFile Bool,
    Reachable tinySuper 1 (LeavesFile tinySuper 1) twoWriters.world s ∧ s.failed = false ∧ s.chunks = [(1, [7]), (0, [8])] ∧
    contents s.world.data s.world.ip = [7, 8] ∧ s.world.off = s.world.ip.size := by
  have h : Reachable tinySuper 1 (LeavesFile tinySuper 1) twoWriters.world twoWriters :=
    .of_init ⟨rfl, rfl, fun _ => rfl, rfl, rfl, rfl⟩
  have h := h.tail (.call (p := true) ⟨fun _ => some fun _ => 8, 0, 1⟩ rfl)
  have h := h.tail (.call (p := false) ⟨fun _ => some fun _ => 7, 0, 1⟩ rfl)
  have h := h.tail (.ilock (p := false) rfl (by decide) rfl)
  have h := h.tail (.writei (p := false) rfl rfl)
  have h := h.tail (.iunlock (p := false) rfl)
  have h := h.tail (.ilock (p := true) rfl (by decide) rfl)
  have h := h.tail (.writei (p := true) rfl rfl)
  have h := h.tail (.iunlock (p := true) rfl)
  have h := h.tail (.stop (p := false) rfl (by decide))
  have h := h.tail (.stop (p := true) rfl (by decide))
  have h := h.tail (.ret (p := true) rfl)
  have h := h.tail (.ret (p := false) rfl)
  have hmerge := shared_writes_merge valid_tinyFs ⟨by decide, by decide⟩ rfl h rfl
  exact ⟨_, h, rfl, rfl, hmerge.1, hmerge.2.2.2 (Bool.forall_bool.mpr ⟨rfl, rfl⟩)⟩

end

end SharedFile

end Xv6
