import SelfStudy.Iocp.Echo
import SelfStudy.Lib.Machine

/-!
# One connection

The I/O context of one client over the whole of its connection: an operation is posted, it completes
with some count, a worker handles the completion and posts the next operation, until a post fails or
the client is gone. The bytes of the first block are those that the accept case has placed in the
buffer.
-/

namespace SelfStudy.Iocp

open Lib

/-- The operation on the context is outstanding, or its completion is queued or in a worker's hands,
or the context has been given up. -/
inductive Phase
  | posted (p : Post)
  | completed (dwIoSize : ℕ)
  | closed
  deriving DecidableEq, Repr

/-- The connection with the bytes received and sent so far. -/
structure Connection where
  io : PerIoContext
  phase : Phase
  received : List UInt8
  sent : List UInt8
  deriving DecidableEq, Repr

namespace Connection

inductive Action
  | receive (bytes : List UInt8)
  | transmit (count : ℕ)
  | handle (ok : Bool)
  | drop

/-- The handler of the operation that has completed. `ClientIoAccept` is handled with the context of
the listening socket, not with this one. -/
def handler (io : PerIoContext) (dwIoSize : ℕ) : Option (PerIoContext × Post) :=
  match io.ioOperation with
  | .clientIoAccept => none
  | .clientIoRead => some (io.clientIoRead dwIoSize)
  | .clientIoWrite => some (io.clientIoWrite dwIoSize)

/-- The connection after AcceptEx has completed with `dwIoSize` bytes in the buffer of `listen`. -/
def accepted (listen : PerIoContext) (dwIoSize : ℕ) : Connection :=
  match PerIoContext.clientIoAccept listen dwIoSize (.initial .clientIoAccept) with
  | (io, p) => ⟨io, .posted p, io.buffer.take dwIoSize, []⟩

/-- One step. A receive completes with some bytes and a send with some count, at most as posted;
the handler of a completion succeeds in posting the next operation or closes the client; an
operation that fails, or completes with nothing, closes the client. -/
def step (s : Connection) : Action → Option Connection
  | .receive bytes =>
    match s.phase with
    | .posted (.recv w) =>
      if 1 ≤ bytes.length ∧ bytes.length ≤ w.len then
        some ⟨s.io.receive w bytes, .completed bytes.length, s.received ++ bytes, s.sent⟩
      else none
    | _ => none
  | .transmit count =>
    match s.phase with
    | .posted (.send w) =>
      if 1 ≤ count ∧ count ≤ w.len then
        some ⟨s.io, .completed count, s.received, s.sent ++ (w.bytes s.io.buffer).take count⟩
      else none
    | _ => none
  | .handle ok =>
    match s.phase with
    | .completed n => (handler s.io n).map fun q =>
        ⟨q.1, if ok then .posted q.2 else .closed, s.received, s.sent⟩
    | _ => none
  | .drop =>
    match s.phase with
    | .posted _ => some { s with phase := .closed }
    | _ => none

/-! ## What a step can do -/

inductive Step (s : Connection) : Connection → Prop
  | receive {w bytes} (hp : s.phase = .posted (.recv w)) (h₁ : 1 ≤ bytes.length)
    (h₂ : bytes.length ≤ w.len) :
    Step s ⟨s.io.receive w bytes, .completed bytes.length, s.received ++ bytes, s.sent⟩
  | transmit {w n} (hp : s.phase = .posted (.send w)) (h₁ : 1 ≤ n) (h₂ : n ≤ w.len) :
    Step s ⟨s.io, .completed n, s.received, s.sent ++ (w.bytes s.io.buffer).take n⟩
  | read {n} (ok : Bool) (hp : s.phase = .completed n) (hop : s.io.ioOperation = .clientIoRead) :
    Step s ⟨(s.io.clientIoRead n).1, if ok then .posted (s.io.clientIoRead n).2 else .closed,
      s.received, s.sent⟩
  | write {n} (ok : Bool) (hp : s.phase = .completed n) (hop : s.io.ioOperation = .clientIoWrite) :
    Step s ⟨(s.io.clientIoWrite n).1, if ok then .posted (s.io.clientIoWrite n).2 else .closed,
      s.received, s.sent⟩
  | drop {p} (hp : s.phase = .posted p) : Step s { s with phase := .closed }

variable {s s' : Connection} {a : Action}

/-- **Inversion.** -/
theorem step_cases (h : s.step a = some s') : Step s s' := by
  cases a with
  | receive bytes =>
    simp only [step] at h
    split at h <;> [rename_i w hp; cases h]
    split_ifs at h with hb
    exact Option.some.inj h ▸ .receive hp hb.1 hb.2
  | transmit n =>
    simp only [step] at h
    split at h <;> [rename_i w hp; cases h]
    split_ifs at h with hn
    exact Option.some.inj h ▸ .transmit hp hn.1 hn.2
  | handle ok =>
    simp only [step] at h
    split at h <;> [rename_i n hp; cases h]
    obtain ⟨q, hq, rfl⟩ := Option.map_eq_some_iff.mp h
    simp only [handler] at hq
    split at hq <;> rename_i hop
    · cases hq
    · exact Option.some.inj hq ▸ .read ok hp hop
    · exact Option.some.inj hq ▸ .write ok hp hop
  | drop =>
    simp only [step] at h
    split at h <;> [rename_i p hp; cases h]
    exact Option.some.inj h ▸ .drop hp

/-! ## The invariant -/

/-- What is still to be sent of the block in the buffer, from `n` on. -/
def rest (io : PerIoContext) (n : ℕ) : List UInt8 := (io.buffer.take io.nTotalBytes).drop n

/-- How the buffer and the counters stand to what has been received and sent. -/
def Accounts (s : Connection) : Prop :=
  match s.phase with
  | .posted (.recv w) =>
    s.io.ioOperation = .clientIoRead ∧ w = ⟨0, maxBuffSize⟩ ∧ s.sent = s.received
  | .posted (.send w) =>
    s.io.ioOperation = .clientIoWrite ∧
      w = ⟨s.io.nSentBytes, s.io.nTotalBytes - s.io.nSentBytes⟩ ∧
      s.received = s.sent ++ rest s.io s.io.nSentBytes
  | .completed n =>
    (s.io.ioOperation = .clientIoRead ∧ n ≤ maxBuffSize ∧
      s.received = s.sent ++ s.io.buffer.take n) ∨
    (s.io.ioOperation = .clientIoWrite ∧ s.io.nSentBytes + n ≤ s.io.nTotalBytes ∧
      s.received = s.sent ++ rest s.io (s.io.nSentBytes + n))
  | .closed => s.sent <+: s.received

structure Inv (s : Connection) : Prop where
  length : s.io.buffer.length = maxBuffSize
  buf : s.io.wsabuf.buf = 0
  nSentBytes_le : s.io.nSentBytes ≤ s.io.nTotalBytes
  nTotalBytes_le : s.io.nTotalBytes ≤ maxBuffSize
  accounts : s.Accounts

theorem prefix_of_accounts (h : s.Accounts) : s.sent <+: s.received := by
  unfold Accounts at h
  split at h
  · exact h.2.2 ▸ List.prefix_refl _
  · rw [h.2.2]
    exact List.prefix_append _ _
  · rcases h with ⟨-, -, h⟩ | ⟨-, -, h⟩ <;> rw [h] <;> exact List.prefix_append _ _
  · exact h

theorem length_overwrite {buffer bytes : List UInt8} {n : ℕ}
    (h : n + bytes.length ≤ buffer.length) :
    (overwrite buffer n bytes).length = buffer.length := by
  simp only [overwrite, List.length_append, List.length_take, List.length_drop]
  omega

theorem take_overwrite (buffer bytes : List UInt8) :
    (overwrite buffer 0 bytes).take bytes.length = bytes := by
  simp [overwrite]

/-- The bytes that a send of `k` bytes takes off the rest. -/
theorem take_append_rest (io : PerIoContext) (n k : ℕ) :
    ((Wsabuf.mk n (io.nTotalBytes - n)).bytes io.buffer).take k ++ rest io (n + k) =
      rest io n := by
  have hr : rest io n = (io.buffer.drop n).take (io.nTotalBytes - n) := by
    rw [rest, List.drop_take]
  have hr' : rest io (n + k) = (rest io n).drop k := by
    rw [rest, rest, List.drop_drop]
  rw [hr', hr]
  exact List.take_append_drop k _

theorem inv_accepted {listen : PerIoContext} {n : ℕ} (hl : listen.buffer.length = maxBuffSize)
    (hn : n ≤ acceptDataLength) : (accepted listen n).Inv := by
  have hmax : maxBuffSize = 8192 := rfl
  have hn' : n ≤ 7904 := hn
  have hz : (PerIoContext.initial .clientIoAccept).buffer.length = maxBuffSize :=
    List.length_replicate ..
  unfold accepted PerIoContext.clientIoAccept
  split_ifs with h0
  · refine ⟨length_stringCbCopyN (by omega) hz hl, rfl, Nat.zero_le _, ?_, rfl, rfl, rfl⟩
    show n ≤ maxBuffSize
    omega
  · exact ⟨hz, rfl, Nat.le_refl _, Nat.zero_le _, rfl, rfl, by simp [not_not.mp h0]⟩

theorem inv_step (h : s.Inv) (hs : Step s s') : s'.Inv := by
  have hacc := h.accounts
  cases hs with
  | @receive w bytes hp h₁ h₂ =>
    simp only [Accounts, hp] at hacc
    obtain ⟨hop, rfl, hsent⟩ := hacc
    have hlen : (0 + bytes.length) ≤ s.io.buffer.length := by
      rw [h.length, Nat.zero_add]
      exact h₂
    refine ⟨(length_overwrite hlen).trans h.length, h.buf, h.nSentBytes_le, h.nTotalBytes_le,
      .inl ⟨hop, h₂, ?_⟩⟩
    show s.received ++ bytes = s.sent ++ (overwrite s.io.buffer 0 bytes).take bytes.length
    rw [take_overwrite, hsent]
  | @transmit w n hp h₁ h₂ =>
    simp only [Accounts, hp] at hacc
    obtain ⟨hop, rfl, hrec⟩ := hacc
    have hle : s.io.nSentBytes + n ≤ s.io.nTotalBytes := by
      have := h.nSentBytes_le
      dsimp only at h₂
      omega
    refine ⟨h.length, h.buf, h.nSentBytes_le, h.nTotalBytes_le, .inr ⟨hop, hle, ?_⟩⟩
    show s.received = s.sent ++ _ ++ rest s.io (s.io.nSentBytes + n)
    rw [List.append_assoc, take_append_rest]
    exact hrec
  | @read n ok hp hop =>
    simp only [Accounts, hp, hop] at hacc
    obtain ⟨hn, hrec⟩ : n ≤ maxBuffSize ∧ s.received = s.sent ++ s.io.buffer.take n := by
      simpa using hacc
    refine ⟨h.length, h.buf, Nat.zero_le _, hn, ?_⟩
    cases ok
    · exact hrec ▸ List.prefix_append _ _
    · refine ⟨rfl, ?_, ?_⟩
      · show (⟨s.io.wsabuf.buf, n⟩ : Wsabuf) = ⟨0, n - 0⟩
        rw [h.buf, Nat.sub_zero]
      · exact hrec
  | @write n ok hp hop =>
    simp only [Accounts, hp, hop] at hacc
    obtain ⟨hle, hrec⟩ : s.io.nSentBytes + n ≤ s.io.nTotalBytes ∧
        s.received = s.sent ++ rest s.io (s.io.nSentBytes + n) := by
      simpa using hacc
    have hpre : s.sent <+: s.received := hrec ▸ List.prefix_append _ _
    by_cases hlt : s.io.nSentBytes + n < s.io.nTotalBytes
    · have hw : s.io.clientIoWrite n = (_, _) := if_pos hlt
      rw [hw]
      refine ⟨h.length, h.buf, hle, h.nTotalBytes_le, ?_⟩
      cases ok
      · exact hpre
      · exact ⟨rfl, rfl, hrec⟩
    · have hw : s.io.clientIoWrite n = (_, _) := if_neg hlt
      rw [hw]
      refine ⟨h.length, h.buf, hle, h.nTotalBytes_le, ?_⟩
      cases ok
      · exact hpre
      · refine ⟨rfl, rfl, ?_⟩
        -- everything of the block has been sent
        have hnil : rest s.io (s.io.nSentBytes + n) = [] := by
          rw [rest, List.drop_eq_nil_iff, List.length_take]
          omega
        show s.sent = s.received
        rw [hrec, hnil, List.append_nil]
  | drop hp =>
    exact ⟨h.length, h.buf, h.nSentBytes_le, h.nTotalBytes_le,
      prefix_of_accounts (s := s) hacc⟩

end Connection

/-- A connection from its accept on. -/
def connection : Machine Connection Connection.Action where
  init s := ∃ listen n, listen.buffer.length = maxBuffSize ∧ n ≤ acceptDataLength ∧
    s = .accepted listen n
  step := Connection.step

theorem inv_of_connection {s : Connection} (h : connection.Reachable s) : s.Inv := by
  refine h.invariant (P := Connection.Inv) ?_ ?_
  · rintro _ ⟨listen, n, hl, hn, rfl⟩
    exact Connection.inv_accepted hl hn
  · intro s a s' _ hI _ hs
    exact Connection.inv_step hI (Connection.step_cases hs)

/-- **Echo.** The bytes sent are always a prefix of the bytes received, and all of them when a
receive is posted; every region posted lies in the buffer, and the counters are in order. -/
theorem connection_echoes : ∀ s, connection.Reachable s →
    s.sent <+: s.received ∧
    (∀ w, s.phase = .posted (.recv w) → s.sent = s.received) ∧
    (∀ p, s.phase = .posted p → p.region.buf + p.region.len ≤ maxBuffSize) ∧
    s.io.nSentBytes ≤ s.io.nTotalBytes ∧ s.io.nTotalBytes ≤ maxBuffSize := by
  intro s hs
  have hI := inv_of_connection hs
  have hacc := hI.accounts
  refine ⟨Connection.prefix_of_accounts hacc, fun w hw => ?_, fun p hp => ?_, hI.nSentBytes_le,
    hI.nTotalBytes_le⟩
  · simp only [Connection.Accounts, hw] at hacc
    exact hacc.2.2
  · cases p with
    | recv w =>
      simp only [Connection.Accounts, hp] at hacc
      obtain ⟨-, rfl, -⟩ := hacc
      exact Nat.le_of_eq (Nat.zero_add _)
    | send w =>
      simp only [Connection.Accounts, hp] at hacc
      obtain ⟨-, rfl, -⟩ := hacc
      have h₁ := hI.nSentBytes_le
      have h₂ := hI.nTotalBytes_le
      show s.io.nSentBytes + (s.io.nTotalBytes - s.io.nSentBytes) ≤ maxBuffSize
      omega

/-- A first block of three bytes of which two have been sent. -/
theorem connection_echoes_partial : ∃ s : Connection, s.sent = [72, 105] ∧
    s.phase = .posted (.send ⟨2, 1⟩) ∧ s.sent <+: s.received := by
  have hlen : ([72, 105, 33] ++ List.replicate 8189 0 : List UInt8).length = maxBuffSize := by
    rw [List.length_append, List.length_replicate]
    rfl
  obtain ⟨s, hs, hsent, hp⟩ : ∃ s, connection.run (.accepted { PerIoContext.initial .clientIoAccept
      with buffer := [72, 105, 33] ++ List.replicate 8189 0 } 3) [.transmit 2, .handle true] =
        some s ∧ s.sent = [72, 105] ∧ s.phase = .posted (.send ⟨2, 1⟩) := ⟨_, rfl, rfl, rfl⟩
  exact ⟨s, hsent, hp, (connection_echoes s
    (Machine.Reachable.run (.init ⟨_, 3, hlen, by decide, rfl⟩) hs)).1⟩

end SelfStudy.Iocp
