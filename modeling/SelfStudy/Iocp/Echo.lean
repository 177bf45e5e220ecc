import SelfStudy.Iocp.Memory

/-!
# Handling a completion on a client

The three cases of `WorkerThread` as functions of the I/O context of the client: what they write
there and which operation they post next.

A first block that arrives with AcceptEx lies in the buffer of the listening context and is copied to
the client with `StringCbCopyN`, cast to wide characters; a block that arrives with WSARecv is sent
from where it is. `accept_echo_iff` compares the two: the copy ends at the first zero unit, so the
accept case sends zeros in place of what follows one.
-/

namespace SelfStudy.Iocp

/-! ## StringCbCopyN -/

/-- The number of 16-bit units before the first zero unit, of at most `cch`. -/
def wcsnlen : ℕ → List UInt8 → ℕ
  | cch + 1, b₀ :: b₁ :: bs => if b₀ = 0 ∧ b₁ = 0 then 0 else wcsnlen cch bs + 1
  | _, _ => 0

/-- `StringCbCopyN` for wide characters: the destination after copying at most `cbToCopy` bytes into
`cbDest` bytes, the last unit of which is kept for the terminator. -/
def stringCbCopyN (dest : List UInt8) (cbDest : ℕ) (src : List UInt8) (cbToCopy : ℕ) : List UInt8 :=
  if cbDest / 2 = 0 then dest
  else
    src.take (2 * min (cbDest / 2 - 1) (wcsnlen (cbToCopy / 2) src)) ++ [0, 0] ++
      dest.drop (2 * min (cbDest / 2 - 1) (wcsnlen (cbToCopy / 2) src) + 2)

/-- The `j`th 16-bit unit is zero. -/
def ZeroUnit (l : List UInt8) (j : ℕ) : Prop := l[2 * j]? = some 0 ∧ l[2 * j + 1]? = some 0

theorem zeroUnit_cons_succ (b₀ b₁ : UInt8) (l : List UInt8) (j : ℕ) :
    ZeroUnit (b₀ :: b₁ :: l) (j + 1) ↔ ZeroUnit l j := by
  have h : 2 * (j + 1) = 2 * j + 1 + 1 := by omega
  simp only [ZeroUnit, h, List.getElem?_cons_succ]

theorem not_zeroUnit_of_lt {cch j : ℕ} {l : List UInt8} (h : j < wcsnlen cch l) :
    ¬ ZeroUnit l j := by
  induction cch, l using wcsnlen.induct generalizing j with
  | case1 cch b₀ b₁ bs hz => simp [wcsnlen, hz] at h
  | case2 cch b₀ b₁ bs hz ih =>
    rw [wcsnlen, if_neg hz] at h
    cases j with
    | zero => simpa [ZeroUnit] using hz
    | succ j =>
      rw [zeroUnit_cons_succ]
      exact ih (by omega)
  | case3 cch l hne =>
    rw [wcsnlen] at h
    · exact absurd h (Nat.not_lt_zero j)
    · exact hne

theorem zeroUnit_wcsnlen {cch : ℕ} {l : List UInt8} (h : wcsnlen cch l < cch)
    (hl : 2 * wcsnlen cch l + 1 < l.length) : ZeroUnit l (wcsnlen cch l) := by
  induction cch, l using wcsnlen.induct with
  | case1 cch b₀ b₁ bs hz =>
    rw [wcsnlen, if_pos hz]
    simpa [ZeroUnit] using hz
  | case2 cch b₀ b₁ bs hz ih =>
    rw [wcsnlen, if_neg hz] at h hl ⊢
    rw [zeroUnit_cons_succ]
    simp only [List.length_cons] at hl
    exact ih (by omega) (by omega)
  | case3 cch l hne =>
    match cch, l with
    | 0, l => omega
    | cch + 1, [] => simp at hl
    | cch + 1, [b] => simp at hl
    | cch + 1, b₀ :: b₁ :: bs => exact absurd rfl (hne cch b₀ b₁ bs rfl)

theorem length_stringCbCopyN {dest src : List UInt8} {cb : ℕ} (hcb : 2 ≤ cb) (hd : dest.length = cb)
    (hs : src.length = cb) : (stringCbCopyN dest cb src cb).length = cb := by
  have h : cb / 2 ≠ 0 := by omega
  have hk : 2 * min (cb / 2 - 1) (wcsnlen (cb / 2) src) + 2 ≤ cb := by omega
  rw [stringCbCopyN, if_neg h]
  simp only [List.length_append, List.length_take, List.length_drop, List.length_cons,
    List.length_nil, hd, hs]
  omega

/-- The copy into a zeroed buffer: the units before the first zero unit, and zeros. -/
theorem stringCbCopyN_zero {src : List UInt8} {cb : ℕ} (hcb : 2 ≤ cb) :
    stringCbCopyN (List.replicate cb 0) cb src cb =
      src.take (2 * min (cb / 2 - 1) (wcsnlen (cb / 2) src)) ++
        List.replicate (cb - 2 * min (cb / 2 - 1) (wcsnlen (cb / 2) src)) 0 := by
  have h : cb / 2 ≠ 0 := by omega
  have hk : 2 * min (cb / 2 - 1) (wcsnlen (cb / 2) src) + 2 ≤ cb := by omega
  rw [stringCbCopyN, if_neg h, List.drop_replicate, List.append_assoc]
  congr 1
  generalize 2 * min (cb / 2 - 1) (wcsnlen (cb / 2) src) = c at hk
  obtain ⟨d, rfl⟩ : ∃ d, cb = d + 2 + c := ⟨cb - 2 - c, by omega⟩
  have h₁ : d + 2 + c - (c + 2) = d := by omega
  rw [h₁, Nat.add_sub_cancel]
  rfl

/-! ## The handlers -/

/-- An overlapped operation and its region. -/
inductive Post
  | send (w : Wsabuf)
  | recv (w : Wsabuf)
  deriving DecidableEq, Repr

def Post.region : Post → Wsabuf
  | .send w => w
  | .recv w => w

/-- The bytes of a region of the buffer. -/
def Wsabuf.bytes (w : Wsabuf) (buffer : List UInt8) : List UInt8 := (buffer.drop w.buf).take w.len

namespace PerIoContext

/-- The context of the new client after `dwIoSize` bytes have arrived with AcceptEx. -/
def copyFirst (listen : PerIoContext) (dwIoSize : ℕ) (io : PerIoContext) : PerIoContext :=
  { io with
    ioOperation := .clientIoWrite
    nTotalBytes := dwIoSize
    nSentBytes := 0
    buffer := stringCbCopyN io.buffer maxBuffSize listen.buffer maxBuffSize
    wsabuf := ⟨0, dwIoSize⟩ }

/-- `ClientIoAccept`, for the context of the new client. -/
def clientIoAccept (listen : PerIoContext) (dwIoSize : ℕ) (io : PerIoContext) :
    PerIoContext × Post :=
  if dwIoSize ≠ 0 then
    (copyFirst listen dwIoSize io, .send (copyFirst listen dwIoSize io).wsabuf)
  else ({ io with ioOperation := .clientIoRead }, .recv ⟨0, maxBuffSize⟩)

/-- `ClientIoRead`. -/
def clientIoRead (dwIoSize : ℕ) (io : PerIoContext) : PerIoContext × Post :=
  ({ io with
      ioOperation := .clientIoWrite
      nTotalBytes := dwIoSize
      nSentBytes := 0
      wsabuf := ⟨io.wsabuf.buf, dwIoSize⟩ },
    .send ⟨io.wsabuf.buf, dwIoSize⟩)

/-- `ClientIoWrite`. -/
def clientIoWrite (dwIoSize : ℕ) (io : PerIoContext) : PerIoContext × Post :=
  if io.nSentBytes + dwIoSize < io.nTotalBytes then
    ({ io with ioOperation := .clientIoWrite, nSentBytes := io.nSentBytes + dwIoSize },
      .send ⟨io.nSentBytes + dwIoSize, io.nTotalBytes - (io.nSentBytes + dwIoSize)⟩)
  else
    ({ io with ioOperation := .clientIoRead, nSentBytes := io.nSentBytes + dwIoSize },
      .recv ⟨0, maxBuffSize⟩)

end PerIoContext

/-- The buffer after bytes have been received at `offset`. -/
def overwrite (buffer : List UInt8) (offset : ℕ) (bytes : List UInt8) : List UInt8 :=
  buffer.take offset ++ bytes ++ buffer.drop (offset + bytes.length)

/-- The completion of a receive into the region. -/
def PerIoContext.receive (io : PerIoContext) (w : Wsabuf) (bytes : List UInt8) : PerIoContext :=
  { io with buffer := overwrite io.buffer w.buf bytes }

/-! ## The first block -/

/-- The buffer of the listening context when an AcceptEx with data has completed. -/
structure Delivery where
  received : List UInt8
  leftover : List UInt8
  pos : 1 ≤ received.length
  fits : received.length ≤ acceptDataLength
  whole : received.length + leftover.length = maxBuffSize

namespace Delivery

/-- The listening context with the delivery in its buffer. -/
def listen (d : Delivery) : PerIoContext :=
  { PerIoContext.initial .clientIoAccept with buffer := d.received ++ d.leftover }

/-- The bytes that a handler posts from the buffer of the client. -/
def posted : PerIoContext × Post → List UInt8
  | (io, p) => p.region.bytes io.buffer

/-- What the accept case sends to a new client. -/
def acceptPosts (d : Delivery) : List UInt8 :=
  posted (PerIoContext.clientIoAccept d.listen d.received.length (.initial .clientIoAccept))

/-- What the read case sends to a new client that gets the same bytes with WSARecv. -/
def readPosts (d : Delivery) : List UInt8 :=
  match PerIoContext.clientIoAccept d.listen 0 (.initial .clientIoAccept) with
  | (io, p) => posted ((io.receive p.region d.received).clientIoRead d.received.length)

/-- No zero unit of the block comes before a nonzero byte of it. -/
def EndsAtZero (d : Delivery) : Prop :=
  ∀ j, ZeroUnit d.received j → ∀ i, 2 * j ≤ i → i < d.received.length → d.received[i]? = some 0

theorem readPosts_eq (d : Delivery) : d.readPosts = d.received := by
  have hle : d.received.length ≤ maxBuffSize := by
    have := d.whole
    omega
  simp [readPosts, PerIoContext.clientIoAccept, PerIoContext.receive, PerIoContext.clientIoRead,
    posted, Post.region, Wsabuf.bytes, overwrite, PerIoContext.initial]

/-- Where zeros in place of the end of a list make no difference. -/
theorem take_append_zeros {l : List UInt8} {c r n : ℕ} (hn : n ≤ l.length) (hr : n ≤ c + r) :
    (l.take c ++ List.replicate r 0).take n = l.take n ↔
      ∀ i, c ≤ i → i < n → l[i]? = some 0 := by
  have hget : ∀ i, c ≤ i → i < n → ((l.take c ++ List.replicate r 0).take n)[i]? = some 0 := by
    intro i hc hi
    have hlen : (l.take c).length = c := by
      rw [List.length_take]
      omega
    rw [List.getElem?_take_of_lt hi, List.getElem?_append_right (by omega), hlen,
      List.getElem?_replicate, if_pos (by omega)]
  constructor
  · intro h i hc hi
    have := hget i hc hi
    rwa [h, List.getElem?_take_of_lt hi] at this
  · intro h
    apply List.ext_getElem?
    intro i
    by_cases hi : i < n
    · by_cases hc : c ≤ i
      · rw [hget i hc hi, List.getElem?_take_of_lt hi, h i hc hi]
      · have hlt : i < (l.take c).length := by
          rw [List.length_take]
          omega
        rw [List.getElem?_take_of_lt hi, List.getElem?_append_left hlt,
          List.getElem?_take_of_lt (by omega), List.getElem?_take_of_lt hi]
    · rw [List.getElem?_take_eq_none (by omega), List.getElem?_take_eq_none (by omega)]

theorem acceptPosts_eq (d : Delivery) : d.acceptPosts =
    (stringCbCopyN (List.replicate maxBuffSize 0) maxBuffSize (d.received ++ d.leftover)
      maxBuffSize).take d.received.length := by
  have hne : d.received.length ≠ 0 := Nat.pos_iff_ne_zero.mp d.pos
  unfold acceptPosts PerIoContext.clientIoAccept
  rw [if_pos hne]
  rfl

/-- The copy keeps the block exactly if the block has only zeros after its first zero unit. -/
theorem acceptPosts_eq_iff (d : Delivery) : d.acceptPosts = d.received ↔ d.EndsAtZero := by
  have hmax : maxBuffSize = 8192 := rfl
  have hfits : d.received.length ≤ 7904 := d.fits
  have hwhole := d.whole
  have hsrc : ∀ i, i < d.received.length → (d.received ++ d.leftover)[i]? = d.received[i]? :=
    fun i hi => List.getElem?_append_left hi
  have hlen : (d.received ++ d.leftover).length = maxBuffSize := by
    rw [List.length_append, hwhole]
  have hself : (d.received ++ d.leftover).take d.received.length = d.received := List.take_left
  -- `m` units are copied, all of them before the limits
  set m := wcsnlen (maxBuffSize / 2) (d.received ++ d.leftover) with hm
  have hiff : d.acceptPosts = d.received ↔
      ∀ i, 2 * min (maxBuffSize / 2 - 1) m ≤ i → i < d.received.length →
        (d.received ++ d.leftover)[i]? = some 0 := by
    have hz := take_append_zeros (l := d.received ++ d.leftover) (n := d.received.length)
      (c := 2 * min (maxBuffSize / 2 - 1) m) (r := maxBuffSize - 2 * min (maxBuffSize / 2 - 1) m)
      (by omega) (by omega)
    rw [hself] at hz
    rw [acceptPosts_eq, stringCbCopyN_zero (by omega), ← hm]
    exact hz
  rw [hiff]
  constructor
  · intro h j hj i hji hi
    rw [← hsrc i hi]
    refine h i ?_ hi
    have hmj : m ≤ j := by
      by_contra hlt
      have hz : ZeroUnit (d.received ++ d.leftover) j := by
        have := (List.getElem?_eq_some_iff.mp hj.2).1
        exact ⟨(hsrc _ (by omega)).trans hj.1, (hsrc _ this).trans hj.2⟩
      exact not_zeroUnit_of_lt (Nat.lt_of_not_le hlt) hz
    omega
  · intro h i hmi hi
    have hlt : m < maxBuffSize / 2 := by omega
    have hz : ZeroUnit (d.received ++ d.leftover) m := zeroUnit_wcsnlen hlt (by omega)
    by_cases hi' : 2 * m + 1 < d.received.length
    · rw [hsrc i hi]
      exact h m ⟨(hsrc _ (by omega)).symm.trans hz.1, (hsrc _ hi').symm.trans hz.2⟩ i (by omega) hi
    · obtain rfl : i = 2 * m := by omega
      exact hz.1

/-- **The first block.** The accept case sends the bytes that were received, as the read case does,
exactly if no zero unit of the block comes before a nonzero byte of it. -/
theorem accept_echo_iff (d : Delivery) :
    (d.acceptPosts = d.received ∧ d.acceptPosts = d.readPosts) ↔ d.EndsAtZero := by
  rw [readPosts_eq, and_self]
  exact acceptPosts_eq_iff d

/-- A zero unit, and then a byte that the client never gets back. -/
theorem accept_echo_zero : ∃ d : Delivery, d.received = [0, 0, 65] ∧ d.acceptPosts = [0, 0, 0] ∧
    d.readPosts = [0, 0, 65] := by
  refine ⟨⟨[0, 0, 65], List.replicate 8189 0, by decide, by decide, ?_⟩, rfl, ?_, readPosts_eq _⟩
  · rw [List.length_replicate]
    rfl
  · rw [acceptPosts_eq]
    rfl

end Delivery

end SelfStudy.Iocp
