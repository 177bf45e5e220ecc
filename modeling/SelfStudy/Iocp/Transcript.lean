import SelfStudy.Iocp.Connection
import SelfStudy.Iocp.Server

/-!
# The transcript of a client

What the server sends to a client is a function of the completions on the client's own socket:
`Turn.next` says what a completion leads to and `echoes` which regions are posted along the way. A
`Talk` sets the regions that should have been posted beside those that were.

`Ready` says how an I/O context and the operation posted with it stand to the turn of the client, and
each handler of `WorkerThread` takes it on by one completion. For a first block this needs that the
copy out of the listening context depends on the block only (`take_stringCbCopyN`): the bytes behind
it are left over from other clients.
-/

namespace SelfStudy.Iocp

/-- What the completion of an operation on a client brings. -/
inductive Completion
  | received (bytes : List UInt8)
  | sent (count : ℕ)
  deriving DecidableEq, Repr

def Transfer.completion : Transfer → Completion
  | .data bytes _ => .received bytes
  | .count n => .sent n

/-- What happens on a socket: an operation completes, or a region is posted with WSASend. -/
inductive Event
  | completed (x : Completion)
  | posted (region : List UInt8)
  deriving DecidableEq, Repr

/-- What the server awaits of a client: the accept, a block, or the rest of one to be sent. -/
inductive Turn
  | accepting
  | reading
  | writing (rest : List UInt8)
  | closed
  deriving DecidableEq, Repr

/-- What `StringCbCopyN` makes of a first block with nothing but zeros behind it. -/
def firstBlock (bytes : List UInt8) : List UInt8 :=
  (stringCbCopyN (List.replicate maxBuffSize 0) maxBuffSize
    (bytes ++ List.replicate (maxBuffSize - bytes.length) 0) maxBuffSize).take bytes.length

namespace Turn

def next : Turn → Completion → Turn
  | .accepting, .received bytes => if bytes = [] then .reading else .writing (firstBlock bytes)
  | .reading, .received bytes => if bytes = [] then .closed else .writing bytes
  | .writing rest, .sent n =>
    if n = 0 then .closed else if n < rest.length then .writing (rest.drop n) else .reading
  | _, _ => .closed

/-- The region that is posted at the beginning of a turn. -/
def region : Turn → Option (List UInt8)
  | .writing rest => some rest
  | _ => none

end Turn

/-- The regions posted in answer to the completions. -/
def echoes : Turn → List Completion → List (List UInt8)
  | _, [] => []
  | turn, x :: xs => (turn.next x).region.toList ++ echoes (turn.next x) xs

namespace Event

def completion : Event → Option Completion
  | .completed x => some x
  | .posted _ => none

def region : Event → Option (List UInt8)
  | .completed _ => none
  | .posted r => some r

end Event

/-- The dialogue with a client: whose turn it is, the regions that answer the completions so far, and
the regions posted. -/
structure Talk where
  turn : Turn
  echoes : List (List UInt8)
  posted : List (List UInt8)
  deriving DecidableEq, Repr

namespace Talk

def start : Talk := ⟨.accepting, [], []⟩

def hear (t : Talk) : Event → Talk
  | .completed x =>
    ⟨t.turn.next x, t.echoes ++ (t.turn.next x).region.toList, t.posted⟩
  | .posted r => { t with posted := t.posted ++ [r] }

theorem foldl_hear_posted (t : Talk) (es : List Event) :
    (es.foldl hear t).posted = t.posted ++ es.filterMap Event.region := by
  induction es generalizing t with
  | nil => exact (List.append_nil _).symm
  | cons e es ih =>
    rw [List.foldl_cons, ih]
    cases e with
    | completed x => rfl
    | posted r => exact List.append_assoc ..

/-- The echoes of a dialogue are those of its completions. -/
theorem foldl_hear_echoes (t : Talk) (es : List Event) :
    (es.foldl hear t).echoes = t.echoes ++ Iocp.echoes t.turn (es.filterMap Event.completion) := by
  induction es generalizing t with
  | nil => exact (List.append_nil _).symm
  | cons e es ih =>
    rw [List.foldl_cons, ih]
    cases e with
    | completed x => exact List.append_assoc ..
    | posted r => rfl

end Talk

/-! ## The first block -/

section FirstBlock

variable {src src' : List UInt8} {n cch : ℕ}

/-- Where one copy goes on and the other has stopped, the block has a zero byte: they disagree about
a unit of which the block has only the first half. -/
theorem zero_of_stops (hsrc : src.take n = src'.take n) (hlen : n < src'.length) (hcch : n < 2 * cch)
    {i : ℕ} (hi : i < n) (hgo : i < 2 * wcsnlen cch src) (hstop : 2 * wcsnlen cch src' ≤ i) :
    src[i]? = some 0 := by
  have hget : ∀ j, j < n → src[j]? = src'[j]? := by
    intro j hj
    rw [← List.getElem?_take_of_lt hj, hsrc, List.getElem?_take_of_lt hj]
  have hz : ZeroUnit src' (wcsnlen cch src') := zeroUnit_wcsnlen (by omega) (by omega)
  have hlt : wcsnlen cch src' < wcsnlen cch src := by omega
  have hnz : ¬ ZeroUnit src (wcsnlen cch src') := not_zeroUnit_of_lt hlt
  by_cases hin : 2 * wcsnlen cch src' + 1 < n
  · refine absurd ⟨?_, ?_⟩ hnz
    · rw [hget _ (by omega)]
      exact hz.1
    · rw [hget _ hin]
      exact hz.2
  · obtain rfl : i = 2 * wcsnlen cch src' := by omega
    rw [hget _ hi]
    exact hz.1

/-- A byte of the copy into a zeroed buffer. -/
theorem getElem?_stringCbCopyN {cb i : ℕ} (hi : i + 2 < 2 * (cb / 2)) (hsrc : i < src.length) :
    (stringCbCopyN (List.replicate cb 0) cb src cb)[i]? =
      if i < 2 * wcsnlen (cb / 2) src then src[i]? else some 0 := by
  rw [stringCbCopyN_zero (by omega)]
  split_ifs with h
  · rw [List.getElem?_append_left, List.getElem?_take_of_lt]
    · omega
    · rw [List.length_take]
      omega
  · rw [List.getElem?_append_right, List.getElem?_replicate, if_pos]
    all_goals
      rw [List.length_take]
      omega

/-- **What lies behind the block does not matter.** -/
theorem take_stringCbCopyN (hsrc : src.take n = src'.take n) (hlen : n < src.length)
    (hlen' : n < src'.length) (hn : n + 2 ≤ maxBuffSize) :
    (stringCbCopyN (List.replicate maxBuffSize 0) maxBuffSize src maxBuffSize).take n =
      (stringCbCopyN (List.replicate maxBuffSize 0) maxBuffSize src' maxBuffSize).take n := by
  have hmax : maxBuffSize = 8192 := rfl
  apply List.ext_getElem?
  intro i
  by_cases hi : i < n
  · have hget : src[i]? = src'[i]? := by
      rw [← List.getElem?_take_of_lt hi, hsrc, List.getElem?_take_of_lt hi]
    rw [List.getElem?_take_of_lt hi, List.getElem?_take_of_lt hi,
      getElem?_stringCbCopyN (by omega) (by omega), getElem?_stringCbCopyN (by omega) (by omega)]
    split_ifs with h h' h'
    · exact hget
    · exact zero_of_stops hsrc hlen' (by omega) hi h (by omega)
    · exact (zero_of_stops hsrc.symm hlen (by omega) hi h' (by omega)).symm
    · rfl
  · rw [List.getElem?_take_eq_none (by omega), List.getElem?_take_eq_none (by omega)]

end FirstBlock

/-! ## The handlers -/

/-- The I/O context and the operation posted with it, or about to be, are as the turn of the client
wants them. -/
structure Ready (io : PerIoContext) (p : Post) (turn : Turn) : Prop where
  length : io.buffer.length = maxBuffSize
  buf : io.wsabuf.buf = 0
  region : match p with
    | .recv w => w = ⟨0, maxBuffSize⟩ ∧ turn = .reading
    | .send w => w = ⟨io.nSentBytes, io.nTotalBytes - io.nSentBytes⟩ ∧
      io.nSentBytes ≤ io.nTotalBytes ∧ io.nTotalBytes ≤ maxBuffSize ∧
      turn = .writing (w.bytes io.buffer)

/-- The operation has been posted, and every region it was for. -/
def Waits (io : PerIoContext) (p : Post) (t : Talk) : Prop :=
  Ready io p t.turn ∧ t.echoes = t.posted

/-- The operation is still to be posted. -/
def Owes (q : PerIoContext × Post) (t : Talk) : Prop :=
  Ready q.1 q.2 t.turn ∧ t.echoes = t.posted ++ t.turn.region.toList

/-- What a post puts on the record: the bytes of the region, at the call of WSASend. -/
def Post.event (buffer : List UInt8) : Post → Option Event
  | .send w => some (.posted (w.bytes buffer))
  | .recv _ => none

/-- The handler of the completion of a call; in the accept case it is handed the listening context. -/
def Call.handler (io : PerIoContext) (n : ℕ) : Call → PerIoContext × Post
  | .acceptEx => io.clientIoAccept n (.initial .clientIoAccept)
  | .post (.recv _) => io.clientIoRead n
  | .post (.send _) => io.clientIoWrite n

section Handlers

variable {io : PerIoContext} {p : Post} {turn : Turn} {t : Talk} {tr : Transfer}
  {f : PerIoContext → PerIoContext}

/-- The status word is nobody's business. -/
theorem Ready.pending (h : Ready io p turn) (b : Bool) : Ready { io with pending := b } p turn :=
  ⟨h.length, h.buf, h.region⟩

theorem Ready.clientIoRead {w : Wsabuf} {bytes : List UInt8} (h : Ready io (.recv w) turn)
    (hw : bytes.length ≤ w.len) (hne : bytes ≠ []) :
    Ready ((io.receive w bytes).clientIoRead bytes.length).1
      ((io.receive w bytes).clientIoRead bytes.length).2 (turn.next (.received bytes)) := by
  obtain ⟨rfl, rfl⟩ := h.region
  have hlen : 0 + bytes.length ≤ io.buffer.length := by
    rw [h.length, Nat.zero_add]
    exact hw
  refine ⟨(Connection.length_overwrite hlen).trans h.length, h.buf, ?_, Nat.zero_le _, hw, ?_⟩
  · show (⟨io.wsabuf.buf, bytes.length⟩ : Wsabuf) = ⟨0, bytes.length - 0⟩
    rw [h.buf, Nat.sub_zero]
  · show (if bytes = [] then _ else _) = _
    rw [if_neg hne, Turn.writing.injEq]
    show bytes = ((overwrite io.buffer 0 bytes).drop io.wsabuf.buf).take bytes.length
    rw [h.buf, List.drop_zero, Connection.take_overwrite]

theorem Ready.clientIoWrite {w : Wsabuf} {n : ℕ} (h : Ready io (.send w) turn) (hw : n ≤ w.len)
    (hne : n ≠ 0) :
    Ready (io.clientIoWrite n).1 (io.clientIoWrite n).2 (turn.next (.sent n)) := by
  obtain ⟨rfl, hle, hmax, rfl⟩ := h.region
  have hlen := h.length
  have hrest : (Wsabuf.bytes ⟨io.nSentBytes, io.nTotalBytes - io.nSentBytes⟩ io.buffer).length =
      io.nTotalBytes - io.nSentBytes := by
    show ((io.buffer.drop io.nSentBytes).take (io.nTotalBytes - io.nSentBytes)).length = _
    rw [List.length_take, List.length_drop]
    omega
  have hnext : (Turn.writing (Wsabuf.bytes ⟨io.nSentBytes, io.nTotalBytes - io.nSentBytes⟩
      io.buffer)).next (.sent n) =
        if n < io.nTotalBytes - io.nSentBytes then
          .writing ((Wsabuf.bytes ⟨io.nSentBytes, io.nTotalBytes - io.nSentBytes⟩ io.buffer).drop n)
        else .reading := by
    rw [Turn.next, if_neg hne, hrest]
  rw [hnext]
  unfold PerIoContext.clientIoWrite
  by_cases hlt : io.nSentBytes + n < io.nTotalBytes
  · rw [if_pos hlt, if_pos (by omega)]
    refine ⟨hlen, h.buf, rfl, Nat.le_of_lt hlt, hmax, ?_⟩
    -- the rest of the region is the rest of the block
    rw [Wsabuf.bytes, Wsabuf.bytes, List.drop_take, List.drop_drop]
    congr 2
    exact Nat.sub_sub ..
  · rw [if_neg hlt, if_neg (by omega)]
    exact ⟨hlen, h.buf, rfl, rfl⟩

/-- The first block is taken out of whatever else is in the buffer of the listening context. -/
theorem ready_clientIoAccept {listen : PerIoContext} {bytes : List UInt8}
    (hlen : listen.buffer.length = maxBuffSize) (hbytes : listen.buffer.take bytes.length = bytes)
    (hfits : bytes.length ≤ acceptDataLength) :
    Ready (listen.clientIoAccept bytes.length (.initial .clientIoAccept)).1
      (listen.clientIoAccept bytes.length (.initial .clientIoAccept)).2
      (Turn.accepting.next (.received bytes)) := by
  have hmax : maxBuffSize = 8192 := rfl
  have hfits' : bytes.length ≤ 7904 := hfits
  have hz : (PerIoContext.initial .clientIoAccept).buffer.length = maxBuffSize :=
    List.length_replicate ..
  unfold PerIoContext.clientIoAccept
  by_cases hne : bytes = []
  · subst hne
    exact ⟨hz, rfl, rfl, rfl⟩
  · rw [if_pos (mt List.length_eq_zero_iff.mp hne), Turn.next, if_neg hne]
    refine ⟨length_stringCbCopyN (by omega) hz hlen, rfl, rfl, Nat.zero_le _, ?_, ?_⟩
    · show bytes.length ≤ maxBuffSize
      omega
    · rw [firstBlock]
      congr 1
      refine take_stringCbCopyN ?_ ?_ ?_ (by omega)
      · rw [hbytes, List.take_left]
      · rw [List.length_append, List.length_replicate]
        omega
      · omega

/-- The post pays what is owed. -/
theorem Owes.post (h : Owes (io, p) t) (b : Bool) :
    Waits { io with pending := b } p ((p.event io.buffer).toList.foldl Talk.hear t) := by
  obtain ⟨hready, hechoes⟩ := h
  cases p with
  | recv w =>
    obtain ⟨-, hturn⟩ := hready.region
    rw [hturn] at hechoes
    exact ⟨hready.pending b, hechoes.trans (List.append_nil _)⟩
  | send w =>
    obtain ⟨-, -, -, hturn⟩ := hready.region
    rw [hturn] at hechoes
    exact ⟨hready.pending b, hechoes⟩

/-- **A client is handled.** -/
theorem Waits.handler (h : Waits io p t) (hf : (Call.post p).finish tr = some f)
    (hne : tr.size ≠ 0) :
    Owes ((Call.post p).handler { f io with pending := false } tr.size)
      (t.hear (.completed tr.completion)) := by
  obtain ⟨hready, hechoes⟩ := h
  refine ⟨?_, congrArg (· ++ _) hechoes⟩
  cases p with
  | recv w =>
    cases tr with
    | count n => cases hf
    | data bytes addresses =>
      cases addresses with
      | cons a as => cases hf
      | nil =>
        obtain ⟨hw, hf⟩ := Option.ite_none_right_eq_some.mp hf
        obtain rfl := Option.some.inj hf
        exact (hready.clientIoRead hw (mt List.length_eq_zero_iff.mpr hne)).pending false
  | send w =>
    cases tr with
    | data bytes addresses => cases hf
    | count n =>
      obtain ⟨hw, hf⟩ := Option.ite_none_right_eq_some.mp hf
      obtain rfl := Option.some.inj hf
      exact (hready.pending false).clientIoWrite hw hne

/-- **A client is accepted.** -/
theorem owes_accepted {listen : PerIoContext} (hlen : listen.buffer.length = maxBuffSize)
    (hf : Call.acceptEx.finish tr = some f) :
    (f listen).buffer.length = maxBuffSize ∧
      Owes (Call.acceptEx.handler { f listen with pending := false } tr.size)
        (Talk.start.hear (.completed tr.completion)) := by
  cases tr with
  | count n => cases hf
  | data bytes addresses =>
    obtain ⟨⟨hfits, haddr⟩, hf⟩ := Option.ite_none_right_eq_some.mp hf
    obtain rfl := Option.some.inj hf
    have hfits' : bytes.length ≤ 7904 := hfits
    have haddr' : addresses.length ≤ 288 := haddr
    have hmax : maxBuffSize = 8192 := rfl
    have hdata : acceptDataLength = 7904 := rfl
    have hlen₁ : (overwrite listen.buffer 0 bytes).length = maxBuffSize :=
      (Connection.length_overwrite (by omega)).trans hlen
    have hlen₂ : (overwrite (overwrite listen.buffer 0 bytes) acceptDataLength addresses).length =
        maxBuffSize := (Connection.length_overwrite (by omega)).trans hlen₁
    refine ⟨hlen₂, ready_clientIoAccept hlen₂ ?_ hfits, rfl⟩
    -- the addresses lie behind the data
    show ((overwrite listen.buffer 0 bytes).take acceptDataLength ++ addresses ++ _).take _ = bytes
    rw [List.append_assoc, List.take_append_of_le_length, List.take_take, Nat.min_eq_left hfits,
      Connection.take_overwrite]
    rw [List.length_take]
    omega

end Handlers

end SelfStudy.Iocp
