import SelfStudy.TestIocp.Server

/-!
# `PostAcceptEx` as one call

A call of `PostAcceptEx` by itself, against whatever `WSASocket` and the successive calls of `AcceptEx`
answer. Its loop is left only when an accept is outstanding: any other error is printed and the call
made again, with the same arguments. So the call either leaves one accept behind, or fails for want of
a socket, or never returns; it has no exit that would release the socket and the object.
-/

namespace SelfStudy.TestIocp

open Iocp (CallResult)

/-- The answers to the statements of the call, in turn. -/
def postAnswers (ok : Bool) (results : ℕ → CallResult) : ℕ → Answer
  | 0 => .call ok
  | 1 => .none
  | n + 2 => .overlapped (results n)

/-- `PostAcceptEx` after `n` statements; the second component is `none` once it has returned. -/
def postAcceptEx (y : Shared) (answers : ℕ → Answer) : ℕ → Option (Shared × Option PostPc)
  | 0 => some (y, some .wsaSocket)
  | n + 1 => (postAcceptEx y answers n).bind fun x =>
    x.2.elim (some (x.1, none)) fun q => q.step x.1 (answers n)

/-- With the new socket and the new object, which holds it. -/
def Shared.withObject (y : Shared) : Shared :=
  { y with sockets := y.sockets + 1, objects := y.objects ++ [.initial y.sockets] }

/-- With the accept outstanding as well. -/
def Shared.withAccept (y : Shared) : Shared :=
  { y.withObject with
    outstanding := y.outstanding ++ [⟨y.objects.length, .acceptEx, listenSocket, ⟨.buffer, 0⟩⟩] }

/-! ## Where the call can be -/

/-- After `n` statements: before `WSASocket`, returned without a socket, before `new`, in the loop with
all the calls of `AcceptEx` so far failed, or returned after the first that has not. -/
inductive PostState (y : Shared) (ok : Bool) (results : ℕ → CallResult) :
    ℕ → Shared × Option PostPc → Prop
  | entered : PostState y ok results 0 (y, some .wsaSocket)
  | noSocket {n} (hok : ok = false) : PostState y ok results (n + 1) (y, none)
  | socket (hok : ok = true) :
    PostState y ok results 1 ({ y with sockets := y.sockets + 1 }, some (.new y.sockets))
  | retrying {n} (hok : ok = true) (hr : ∀ k < n, (results k).starts = false) :
    PostState y ok results (n + 2) (y.withObject, some (.acceptEx y.objects.length))
  | posted {n k} (hok : ok = true) (hk : k < n) (hr : (results k).starts = true) :
    PostState y ok results (n + 2) (y.withAccept, none)

variable {y : Shared} {ok : Bool} {results : ℕ → CallResult}

/-- One statement. -/
theorem PostState.next {n : ℕ} {x : Shared × Option PostPc} (h : PostState y ok results n x) :
    ∃ x', x.2.elim (some (x.1, none)) (fun q => q.step x.1 (postAnswers ok results n)) = some x' ∧
      PostState y ok results (n + 1) x' := by
  cases h with
  | entered =>
    cases hok : ok with
    | false => exact ⟨_, rfl, .noSocket rfl⟩
    | true => exact ⟨_, rfl, .socket rfl⟩
  | noSocket hok => exact ⟨_, rfl, .noSocket hok⟩
  | socket hok => exact ⟨_, rfl, .retrying hok fun k hk => absurd hk (Nat.not_lt_zero k)⟩
  | @retrying n hok hr =>
    refine ⟨_, rfl, ?_⟩
    unfold Shared.start
    cases hn : (results n).starts with
    | true => exact .posted hok (Nat.lt_succ_self n) hn
    | false =>
      refine .retrying hok fun k hk => ?_
      rcases Nat.lt_succ_iff_lt_or_eq.mp hk with hk | rfl
      · exact hr k hk
      · exact hn
  | posted hok hk hr => exact ⟨_, rfl, .posted hok (Nat.lt_succ_of_lt hk) hr⟩

theorem postAcceptEx_state (y : Shared) (ok : Bool) (results : ℕ → CallResult) (n : ℕ) :
    ∃ x, postAcceptEx y (postAnswers ok results) n = some x ∧ PostState y ok results n x := by
  induction n with
  | zero => exact ⟨_, rfl, .entered⟩
  | succ n ih =>
    obtain ⟨x, hx, hstate⟩ := ih
    obtain ⟨x', hx', hstate'⟩ := hstate.next
    refine ⟨x', ?_, hstate'⟩
    rw [postAcceptEx, hx]
    exact hx'

theorem postState_of_eq {n : ℕ} {x : Shared × Option PostPc}
    (h : postAcceptEx y (postAnswers ok results) n = some x) : PostState y ok results n x := by
  obtain ⟨x', hx', hstate⟩ := postAcceptEx_state y ok results n
  rw [h] at hx'
  exact Option.some.inj hx' ▸ hstate

/-! ## What the call leaves -/

/-- One accept more is outstanding, and it has the one new object, which holds the one new socket. -/
structure OneAccept (y y' : Shared) : Prop where
  sockets : y'.sockets = y.sockets + 1
  objects : ∃ overlp : OverlappedPerIo, overlp.socket = y.sockets ∧ overlp.type = .ioAccept ∧
    y'.objects = y.objects ++ [overlp]
  outstanding : ∃ op : Operation, op.overlapped = y.objects.length ∧ op.call = .acceptEx ∧
    op.socket = listenSocket ∧ y'.outstanding = y.outstanding ++ [op]

/-- No socket and no object more than before. -/
structure NothingLeft (y y' : Shared) : Prop where
  sockets : y'.sockets = y.sockets
  objects : y'.objects = y.objects
  outstanding : y'.outstanding = y.outstanding

/-- What a call of `PostAcceptEx` owes its caller. -/
structure PostCorrect (y : Shared) (ok : Bool) (results : ℕ → CallResult) : Prop where
  returns : ∃ n y', postAcceptEx y (postAnswers ok results) n = some (y', none)
  leaves : ∀ n y', postAcceptEx y (postAnswers ok results) n = some (y', none) →
    OneAccept y y' ∨ NothingLeft y y'
  listening : ∀ n y' q, postAcceptEx y (postAnswers ok results) n = some (y', q) → y'.log = y.log

theorem oneAccept_withAccept (y : Shared) : OneAccept y y.withAccept where
  sockets := rfl
  objects := ⟨_, rfl, rfl, rfl⟩
  outstanding := ⟨_, rfl, rfl, rfl, rfl⟩

theorem PostState.leaves {n : ℕ} {y' : Shared} (h : PostState y ok results n (y', none)) :
    OneAccept y y' ∨ NothingLeft y y' := by
  cases h with
  | noSocket => exact .inr ⟨rfl, rfl, rfl⟩
  | posted => exact .inl (oneAccept_withAccept y)

/-- The call closes nothing. -/
theorem PostState.log_eq {n : ℕ} {x : Shared × Option PostPc} (h : PostState y ok results n x) :
    x.1.log = y.log := by
  cases h <;> rfl

/-- The call returns without a socket, or when an accept is outstanding. -/
theorem PostState.answered {n : ℕ} {y' : Shared} (h : PostState y ok results n (y', none)) :
    ok = false ∨ ∃ k, (results k).starts = true := by
  cases h with
  | noSocket hok => exact .inl hok
  | posted hok hk hr => exact .inr ⟨_, hr⟩

theorem PostState.returned {k : ℕ} {x : Shared × Option PostPc}
    (h : PostState y ok results (k + 3) x) (hk : (results k).starts = true) : x.2 = none := by
  cases h with
  | noSocket => rfl
  | posted => rfl
  | retrying hok hr =>
    have hn := hr k (Nat.lt_succ_self k)
    rw [hk] at hn
    cases hn

/-- **When `PostAcceptEx` returns.** It returns, with one accept outstanding or nothing left and the
listening socket open, exactly if `WSASocket` fails or some call of `AcceptEx` succeeds or is
pending. -/
theorem postAcceptEx_correct_iff (y : Shared) (ok : Bool) (results : ℕ → CallResult) :
    PostCorrect y ok results ↔ ok = false ∨ ∃ k, (results k).starts = true := by
  constructor
  · intro h
    obtain ⟨n, y', hy'⟩ := h.returns
    exact (postState_of_eq hy').answered
  · intro h
    refine ⟨?_, fun n y' hy' => (postState_of_eq hy').leaves,
      fun n y' q hq => (postState_of_eq hq).log_eq⟩
    rcases h with hok | ⟨k, hk⟩
    · subst hok
      exact ⟨1, y, rfl⟩
    · obtain ⟨⟨y', q⟩, hx, hstate⟩ := postAcceptEx_state y ok results (k + 3)
      obtain rfl : q = none := hstate.returned hk
      exact ⟨k + 3, y', hx⟩

/-- After the listening socket has been closed every call of `AcceptEx` fails with
`ERROR_INVALID_HANDLE`, and `PostAcceptEx` makes it for ever. -/
theorem postAcceptEx_spins :
    (∀ n, ∃ q, postAcceptEx { (Server.initial 4).y with log := [.closesocket listenSocket] }
      (postAnswers true fun _ => .error 6) (n + 2) = some (q, some (.acceptEx 0))) ∧
    ¬ PostCorrect { (Server.initial 4).y with log := [.closesocket listenSocket] } true
      fun _ => .error 6 := by
  refine ⟨fun n => ?_, fun h => ?_⟩
  · obtain ⟨x, hx, hstate⟩ := postAcceptEx_state
      { (Server.initial 4).y with log := [.closesocket listenSocket] } true (fun _ => .error 6) (n + 2)
    cases hstate with
    | noSocket hok => cases hok
    | posted hok hk hr => cases hr
    | retrying => exact ⟨_, hx⟩
  · obtain ⟨n, y', hy'⟩ := h.returns
    rcases (postState_of_eq hy').answered with hok | ⟨k, hk⟩
    · cases hok
    · cases hk

end SelfStudy.TestIocp
