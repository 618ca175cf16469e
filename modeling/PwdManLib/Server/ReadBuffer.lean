import PwdManLib.Server.Route

/-!
# The buffer of `readall`

`respond` and the client hand `readall` a zeroed buffer of `SOCK_BUFF_DEF_READ` bytes, and every
`SSL_read` may fill as many again. The loop only stops behind `SOCK_BUFF_MAX_READ` bytes. `readStores`
is `readall` with a record of what is stored where. The stores stay inside the buffer for a peer that
stops in time (`FitsBuffer`).
-/

namespace PwdManLib

open Exec Trace

def SOCK_BUFF_DEF_READ : Nat := 87380

/-- The bytes an `SSL_read` gives. -/
def Read.received : Read → List UInt8
  | failed => []
  | bytes received => received

/-- The results of the `SSL_read` calls on a connection, none longer than what the call asks for. -/
structure Peer where
  reads : Nat → Read
  read_le : ∀ k, (reads k).received.length ≤ SOCK_BUFF_DEF_READ

/-! ## Stores -/

/-- Bytes stored in a buffer, from an offset on. -/
structure Store where
  offset : Nat
  bytes : List UInt8
  deriving DecidableEq, Repr

/-- A buffer after a store, cell by cell. -/
def Store.apply (mem : Nat → UInt8) (s : Store) (i : Nat) : UInt8 :=
  if s.offset ≤ i then s.bytes.getD (i - s.offset) (mem i) else mem i

/-- A zeroed buffer, and the memory behind it, after some stores. -/
def memory (stores : List Store) : Nat → UInt8 := stores.foldl Store.apply fun _ => 0

/-- One round of `readall`, with the call's store. -/
def storeStep (reads : Nat → Read) (st : Nat × List UInt8) :
    Trace Store ((Nat × List UInt8) ⊕ (Int × List UInt8)) where
  sent := [{ offset := st.2.length, bytes := (reads st.1).received }]
  next := readStep reads st

/-- `readall` with its stores. -/
def readStores (reads : Nat → Read) : Nat → Trace Store (Int × List UInt8) :=
  Trace.loop (storeStep reads) (0, [])

theorem next_readStores (reads : Nat → Read) (rounds : Nat) :
    (readStores reads rounds).next = readall reads rounds :=
  Trace.next_loop _ _ _

theorem apply_append {mem : Nat → UInt8} {buf : List UInt8} (hmem : ∀ i, mem i = buf.getD i 0)
    (bytes : List UInt8) (i : Nat) :
    Store.apply mem { offset := buf.length, bytes := bytes } i = (buf ++ bytes).getD i 0 := by
  show (if buf.length ≤ i then bytes.getD (i - buf.length) (mem i) else mem i) = _
  rw [hmem, List.getD_eq_getElem?_getD, List.getD_eq_getElem?_getD, List.getD_eq_getElem?_getD]
  rcases Nat.lt_or_ge i buf.length with hi | hi
  · rw [if_neg (Nat.not_le.mpr hi), List.getElem?_append_left hi]
  · rw [if_pos hi, List.getElem?_append_right hi, List.getElem?_eq_none hi, Option.getD_none]

theorem readStep_buf {reads : Nat → Read} {st : Nat × List UInt8}
    {r : (Nat × List UInt8) ⊕ (Int × List UInt8)} (h : readStep reads st = done r) :
    r.elim Prod.snd Prod.snd = st.2 ++ (reads st.1).received := by
  rw [readStep] at h
  cases hread : reads st.1 with
  | failed =>
    rw [hread, done.injEq] at h
    rw [← h, Read.received, List.append_nil]
    rfl
  | bytes received =>
    simp only [hread] at h
    split_ifs at h <;> rw [done.injEq] at h <;> rw [← h] <;> rfl

theorem memory_loop {reads : Nat → Read} {status : Int} {buf : List UInt8} (rounds : Nat)
    (st : Nat × List UInt8) (mem : Nat → UInt8) (hmem : ∀ i, mem i = st.2.getD i 0)
    (h : (Trace.loop (storeStep reads) st rounds).next = done (status, buf)) (i : Nat) :
    (Trace.loop (storeStep reads) st rounds).sent.foldl Store.apply mem i = buf.getD i 0 := by
  induction rounds generalizing st mem with
  | zero => simp [Trace.loop] at h
  | succ rounds ih =>
    rw [Trace.loop, next_bind, bind_eq_done] at h
    obtain ⟨r, hr, hrest⟩ := h
    have hbuf := readStep_buf hr
    have hmem' := apply_append hmem (reads st.1).received
    rw [Trace.loop, bind_of_done hr, List.foldl_append]
    cases r with
    | inl st' =>
      refine ih st' _ ?_ hrest
      intro j
      rw [← hbuf] at hmem'
      exact hmem' j
    | inr b =>
      obtain rfl := done.inj hrest
      rw [← hbuf] at hmem'
      exact hmem' i

/-- **What is in the buffer in the end is what `readall` has read**, with NULs behind it. -/
theorem memory_readStores {reads : Nat → Read} {rounds : Nat} {status : Int} {buf : List UInt8}
    (h : readall reads rounds = done (status, buf)) (i : Nat) :
    memory (readStores reads rounds).sent i = buf.getD i 0 :=
  memory_loop rounds (0, []) _ (fun _ => rfl) ((next_readStores reads rounds).trans h) i

/-- The bytes of the first `k` reads. -/
def receivedBy (reads : Nat → Read) (k : Nat) : List UInt8 :=
  (List.range k).flatMap fun i => (reads i).received

theorem receivedBy_succ (reads : Nat → Read) (k : Nat) :
    receivedBy reads (k + 1) = receivedBy reads k ++ (reads k).received := by
  rw [receivedBy, List.range_succ, List.flatMap_append, List.flatMap_singleton]
  rfl

/-! ## The states of the loop -/

theorem readStep_next_iff {reads : Nat → Read} {st st' : Nat × List UInt8} :
    readStep reads st = done (.inl st') ↔
      (reads st.1).received ≠ [] ∧
        (st.2 ++ (reads st.1).received).length ≤ SOCK_BUFF_MAX_READ ∧
        st' = (st.1 + 1, st.2 ++ (reads st.1).received) := by
  rw [readStep]
  cases reads st.1 with
  | failed => simp [Read.received]
  | bytes received =>
    simp only [Read.received]
    by_cases hend : (st.2 ++ received).length > SOCK_BUFF_MAX_READ ∨ received = []
    · rw [if_pos hend]
      apply iff_of_false (by simp)
      intro h
      obtain ⟨hne, hle, -⟩ := h
      exact hend.elim (by omega) hne
    · rw [if_neg hend]
      have hgo := not_or.mp hend
      rw [and_iff_right hgo.2, and_iff_right (by omega), done.injEq, Sum.inl.injEq, eq_comm]

theorem state_of_reaches {reads : Nat → Read} {st : Nat × List UInt8}
    (h : Reaches (storeStep reads) (0, []) st) :
    st.2 = receivedBy reads st.1 ∧ ∀ i < st.1, (reads i).received ≠ [] := by
  refine h.invariant (I := fun st => st.2 = receivedBy reads st.1 ∧
    ∀ i < st.1, (reads i).received ≠ []) ?_ ⟨rfl, by simp⟩
  rintro ⟨k, buf⟩ st' ⟨hbuf, hreads⟩ hnext
  obtain ⟨hne, -, rfl⟩ := readStep_next_iff.mp hnext
  refine ⟨?_, ?_⟩
  · rw [receivedBy_succ, ← hbuf]
  · intro i hi
    rcases Nat.lt_succ_iff_lt_or_eq.mp hi with hlt | rfl
    · exact hreads i hlt
    · exact hne

theorem reaches_receivedBy {reads : Nat → Read} {k : Nat} (hreads : ∀ i < k, (reads i).received ≠ [])
    (hlen : (receivedBy reads k).length ≤ SOCK_BUFF_MAX_READ) :
    Reaches (storeStep reads) (0, []) (k, receivedBy reads k) := by
  induction k with
  | zero => exact .refl
  | succ k ih =>
    rw [receivedBy_succ] at hlen ⊢
    have hk : (receivedBy reads k).length ≤ SOCK_BUFF_MAX_READ := by
      rw [List.length_append] at hlen
      omega
    have hreach := ih (fun i hi => hreads i (by omega)) hk
    exact hreach.tail (readStep_next_iff.mpr ⟨hreads k (by omega), hlen, rfl⟩)

/-! ## Staying inside the buffer -/

/-- Every byte is stored in front of the buffer's last one, which stays NUL. -/
structure BufferKept (peer : Peer) : Prop where
  offset_lt : ∀ rounds, ∀ s ∈ (readStores peer.reads rounds).sent, ∀ j < s.bytes.length,
    s.offset + j < SOCK_BUFF_DEF_READ - 1
  terminated : ∀ rounds, memory (readStores peer.reads rounds).sent (SOCK_BUFF_DEF_READ - 1) = 0

/-- The peer sends less than the buffer holds before its first empty or failed read. -/
def FitsBuffer (peer : Peer) : Prop :=
  ∀ k, (∀ i < k, (peer.reads i).received ≠ []) →
    (receivedBy peer.reads k).length < SOCK_BUFF_DEF_READ

theorem memory_eq_zero {stores : List Store} {i : Nat}
    (h : ∀ s ∈ stores, ∀ j < s.bytes.length, s.offset + j ≠ i) : memory stores i = 0 := by
  suffices hfold : ∀ mem : Nat → UInt8, stores.foldl Store.apply mem i = mem i from hfold _
  induction stores with
  | nil => exact fun _ => rfl
  | cons s stores ih =>
    intro mem
    have hkeep : s.apply mem i = mem i := by
      rw [Store.apply]
      split_ifs with hle
      · have hout : s.bytes.length ≤ i - s.offset := by
          by_contra hin
          exact h s (by simp) (i - s.offset) (by omega) (by omega)
        rw [List.getD_eq_getElem?_getD, List.getElem?_eq_none hout, Option.getD_none]
      · rfl
    rw [List.foldl_cons, ih (fun s' hs' => h s' (by simp [hs'])), hkeep]

theorem FitsBuffer.offset_lt {peer : Peer} (h : FitsBuffer peer) {rounds : Nat} {s : Store}
    (hs : s ∈ (readStores peer.reads rounds).sent) {j : Nat} (hj : j < s.bytes.length) :
    s.offset + j < SOCK_BUFF_DEF_READ - 1 := by
  obtain ⟨⟨k, buf⟩, hreach, hsent⟩ := mem_sent_loop_iff.mp ⟨rounds, hs⟩
  obtain rfl := List.mem_singleton.mp hsent
  have hj : j < (peer.reads k).received.length := hj
  obtain ⟨hbuf, hreads⟩ := state_of_reaches hreach
  have hne : (peer.reads k).received ≠ [] := List.ne_nil_of_length_pos (by omega)
  have hfits := h (k + 1) fun i hi => by
    rcases Nat.lt_succ_iff_lt_or_eq.mp hi with hlt | rfl
    · exact hreads i hlt
    · exact hne
  rw [receivedBy_succ, List.length_append] at hfits
  simp only at hbuf ⊢
  rw [hbuf]
  omega

theorem fitsBuffer_of_offset_lt {peer : Peer}
    (h : ∀ rounds, ∀ s ∈ (readStores peer.reads rounds).sent, ∀ j < s.bytes.length,
      s.offset + j < SOCK_BUFF_DEF_READ - 1) : FitsBuffer peer := by
  intro k hreads
  induction k with
  | zero => exact (by decide : 0 < SOCK_BUFF_DEF_READ)
  | succ k ih =>
    have hk := ih fun i hi => hreads i (by omega)
    have hreach := reaches_receivedBy (fun i hi => hreads i (by omega))
      (hk.le.trans (by decide : SOCK_BUFF_DEF_READ ≤ SOCK_BUFF_MAX_READ))
    obtain ⟨rounds, hsent⟩ := mem_sent_loop_iff.mpr ⟨_, hreach, List.mem_singleton_self _⟩
    -- the last byte of the read
    have hpos := List.length_pos_of_ne_nil (hreads k (by omega))
    have hlast := h rounds _ hsent ((peer.reads k).received.length - 1) (by simp only; omega)
    rw [receivedBy_succ, List.length_append]
    simp only at hlast
    omega

theorem bufferKept_iff (peer : Peer) : BufferKept peer ↔ FitsBuffer peer := by
  constructor
  · exact fun h => fitsBuffer_of_offset_lt h.offset_lt
  · intro h
    refine ⟨fun rounds s hs j hj => h.offset_lt hs hj, fun rounds => memory_eq_zero ?_⟩
    intro s hs j hj
    exact (h.offset_lt hs hj).ne

/-- A read that fills the buffer leaves no room for the NUL. -/
theorem full_read_overruns : ¬ ∀ peer : Peer, BufferKept peer := by
  intro hall
  let peer : Peer :=
    { reads := fun k => if k = 0 then .bytes (List.replicate SOCK_BUFF_DEF_READ 65) else .bytes []
      read_le := by
        intro k
        split_ifs
        · exact (List.length_replicate ..).le
        · exact Nat.zero_le _ }
  have hread : (peer.reads 0).received = List.replicate SOCK_BUFF_DEF_READ 65 := rfl
  have hlen : (receivedBy peer.reads 1).length = SOCK_BUFF_DEF_READ := by
    rw [receivedBy_succ, hread, receivedBy, List.range_zero, List.flatMap_nil, List.nil_append,
      List.length_replicate]
  have hfits := fitsBuffer_of_offset_lt (hall peer).offset_lt 1 fun i hi => by
    obtain rfl : i = 0 := by omega
    rw [hread]
    exact List.cons_ne_nil _ _
  omega

end PwdManLib
