import FastInAHurry.Io.Socket
import FastInAHurry.Library.Runs

/-!
# Sockets of TCP servers and clients

The embedding of `Tcp::create_socket`, of `TcpServer::start` and `accept_client` and of
`TcpClient::connect_to_server`. A `Tcp` object goes by the name of its `m_sock`; its constructors,
its moves and its destructor do to `m_sock` what those of a `Socket` do. Which calls of the kernel
succeed is part of the event, so that an attempt can fail at any point and be repeated.

An attempt opens one descriptor at most, and gives it to `m_sock` before anything else can fail;
what `m_sock` held before is closed by that assignment. So the failure paths have nothing to do.
-/

namespace FastInAHurry

open Descriptors Runs

namespace Io

inductive TcpError where
  | badSocket
  | bindFail
  | listenFail
  | connectFail
  | acceptFail
  | sendFail
  | recvFail
  | invalidIp
deriving DecidableEq, Repr

namespace Tcp

/-- `create_socket()`, where `::socket` has returned `fd`. -/
def createSocket (k : Kernel) (mSock : Socket) (fd : ℤ) : Except TcpError Unit × Kernel × Socket :=
  if fd < 0 then (.error .badSocket, k, mSock) else (.ok (), mSock.assign k fd)

/-- `TcpServer::start()`. -/
def start (k : Kernel) (mSock : Socket) (fd : ℤ) (binds listens : Bool) :
    Except TcpError Unit × Kernel × Socket :=
  match createSocket k mSock fd with
  | (.error _, k, mSock) => (.error .badSocket, k, mSock)
  | (.ok _, k, mSock) =>
    match k.bind mSock.mFd binds with
    | (false, k) => (.error .bindFail, k, mSock)
    | (true, k) => if listens then (.ok (), k, mSock) else (.error .listenFail, k, mSock)

/-- `TcpServer::accept_client()`, where `::accept` has returned `clientFd`. The result is moved
from the temporary `Socket{client_fd}`. -/
def acceptClient (k : Kernel) (clientFd : ℤ) : Except TcpError Socket × Kernel :=
  if clientFd < 0 then (.error .badSocket, k)
  else
    let (client, temporary) := Socket.moveConstruct ⟨clientFd⟩
    (.ok client, temporary.destroy k)

/-- `TcpClient::connect_to_server()`. -/
def connectToServer (k : Kernel) (mSock : Socket) (fd : ℤ) (validIp connects : Bool) :
    Except TcpError Unit × Kernel × Socket :=
  match createSocket k mSock fd with
  | (.error _, k, mSock) => (.error .badSocket, k, mSock)
  | (.ok _, k, mSock) =>
    if !validIp then (.error .invalidIp, k, mSock)
    else if connects then (.ok (), k, mSock)
    else (.error .connectFail, k, mSock)

inductive Op (ι : Type*) where
  | start (fd : ℤ) (binds listens : Bool)
  | acceptClient (clientFd : ℤ) (client : ι)
  | connectToServer (fd : ℤ) (validIp connects : Bool)

end Tcp

inductive Event (ι : Type*) where
  | socket (i : ι) (op : Socket.Op ι)
  | tcp (i : ι) (op : Tcp.Op ι)

/-- The object whose socket the event makes, changes or destroys. -/
def Event.object {ι : Type*} : Event ι → ι
  | .socket i _ => i
  | .tcp _ (.acceptClient _ client) => client
  | .tcp i _ => i

namespace World

variable {ι : Type*} [DecidableEq ι]

/-- The result of `accept_client` is given to the socket `client`, if there is one. -/
def afterAccept (w : World ι) (client : ι) : Except TcpError Socket × Kernel → World ι
  | (.ok s, k) => { w with kernel := k }.put client (some s)
  | (.error _, k) => { w with kernel := k }

/-- An operation of the `Tcp` object whose `m_sock` is the socket `i`. -/
def tcpStep (w : World ι) (i : ι) (op : Tcp.Op ι) : Option (World ι) :=
  match op, w.sockets i with
  | .start fd binds listens, some mSock =>
    (w.returns fd).map fun w ↦ w.after i (Tcp.start w.kernel mSock fd binds listens).2
  | .connectToServer fd validIp connects, some mSock =>
    (w.returns fd).map fun w ↦ w.after i (Tcp.connectToServer w.kernel mSock fd validIp connects).2
  | .acceptClient fd client, some _ =>
    if w.sockets client = none then
      (w.returns fd).map fun w ↦ w.afterAccept client (Tcp.acceptClient w.kernel fd)
    else none
  | _, none => none

def step (w : World ι) : Event ι → Option (World ι)
  | .socket i op => w.socketStep i op
  | .tcp i op => w.tcpStep i op

/-! ## What the attempts do -/

variable {w v t : World ι} {i : ι} {mSock : Socket} {fd : ℤ}

theorem after_self (hi : w.sockets i = some mSock) : w.after i (w.kernel, mSock) = w := by
  have hsame : Function.update w.sockets i (some mSock) = w.sockets := by
    rw [← hi, Function.update_eq_self]
  unfold after put
  rw [hsame]

omit [DecidableEq ι] in
theorem returns_of_neg (hneg : fd < 0) (hst : w.returns fd = some v) : v = w := by
  rw [returns, Kernel.returns, if_pos hneg] at hst
  exact (Option.some.inj hst).symm

/-- `create_socket` leaves everything as it is, or replaces the descriptor of `m_sock`. -/
theorem move_createSocket (hi : w.sockets i = some mSock) (hst : w.returns fd = some v) :
    Move w i (v.after i (Tcp.createSocket v.kernel mSock fd).2) := by
  unfold Tcp.createSocket
  split
  · next hneg =>
    obtain rfl := returns_of_neg hneg hst
    rw [after_self hi]
    exact .same
  · exact .replace hi hst

/-- After `create_socket`, nothing in `start` touches a descriptor. -/
theorem start_snd (k : Kernel) (binds listens : Bool) :
    ∃ bound, (Tcp.start k mSock fd binds listens).2 =
      ({ (Tcp.createSocket k mSock fd).2.1 with bound := bound },
        (Tcp.createSocket k mSock fd).2.2) := by
  unfold Tcp.start
  generalize Tcp.createSocket k mSock fd = r
  obtain ⟨result, k', mSock'⟩ := r
  cases result with
  | error e => exact ⟨k'.bound, rfl⟩
  | ok =>
    dsimp only
    rcases k'.bind_cases mSock'.mFd binds with hb | ⟨n, -, -, hb⟩
    · exact ⟨k'.bound, by rw [hb]⟩
    · refine ⟨k'.bound ++ [n], ?_⟩
      rw [hb]
      cases listens <;> rfl

theorem connectToServer_snd (k : Kernel) (validIp connects : Bool) :
    (Tcp.connectToServer k mSock fd validIp connects).2 = (Tcp.createSocket k mSock fd).2 := by
  unfold Tcp.connectToServer
  generalize Tcp.createSocket k mSock fd = r
  obtain ⟨_ | _, k', mSock'⟩ := r
  · rfl
  · cases validIp <;> cases connects <;> rfl

theorem move_of_tcpStep {op : Tcp.Op ι} (hst : w.tcpStep i op = some t) :
    Move w (Event.object (.tcp i op)) t := by
  unfold tcpStep at hst
  split at hst <;> rename_i hi <;> try contradiction
  · obtain ⟨v, hv, rfl⟩ := Option.map_eq_some_iff.mp hst
    -- `bind` and `listen` record an address at most
    obtain ⟨bound, hbound⟩ := start_snd v.kernel _ _
    rw [hbound]
    exact .bind (move_createSocket hi hv) bound
  · obtain ⟨v, hv, rfl⟩ := Option.map_eq_some_iff.mp hst
    rw [connectToServer_snd]
    exact move_createSocket hi hv
  · split at hst <;> try contradiction
    next hclient =>
      obtain ⟨v, hv, rfl⟩ := Option.map_eq_some_iff.mp hst
      unfold Tcp.acceptClient
      split
      · next hneg =>
        obtain rfl := returns_of_neg hneg hv
        exact .same
      · exact .construct hclient hv

theorem move_of_step {e : Event ι} (hst : w.step e = some t) : Move w e.object t := by
  cases e with
  | socket i op => exact move_of_socketStep hst
  | tcp i op => exact move_of_tcpStep hst

omit [DecidableEq ι] in
theorem Inv.init : Inv (World.init : World ι) := Descriptors.Inv.init

theorem inv_of_run {events : List (Event ι)} (hrun : exec step World.init events = some w) :
    Inv w :=
  exec_invariant (fun _ _ _ h hst ↦ h.move (move_of_step hst)) Inv.init hrun

/-- **Every descriptor is closed exactly once**, for any number of sockets and every sequence of
their operations, whatever numbers the kernel uses again and wherever the attempts to start, to
accept and to connect fail. No two sockets hold the same descriptor, and what a socket holds is
open. No close has gone wrong: an operation closes nothing, or the open descriptor that its own
object holds. When all sockets are destroyed, every opening was closed once. -/
theorem descriptors_closed_once (events : List (Event ι)) (w : World ι)
    (hrun : exec step World.init events = some w) :
    (∀ i j s s', w.sockets i = some s → w.sockets j = some s' → 0 ≤ s.mFd → s.mFd = s'.mFd →
      i = j) ∧
    (∀ i s, w.sockets i = some s → 0 ≤ s.mFd → ∃ n, w.kernel.table.entries s.mFd.toNat = some n) ∧
    w.kernel.table.badCloses = 0 ∧
    (∀ e t, w.step e = some t → t.kernel.table.closed = w.kernel.table.closed ∨
      ∃ s n, w.sockets e.object = some s ∧ 0 ≤ s.mFd ∧
        w.kernel.table.entries s.mFd.toNat = some n ∧
        t.kernel.table.closed = w.kernel.table.closed ++ [(n, s.mFd.toNat)]) ∧
    ((∀ i, w.sockets i = none) → ∀ n < w.kernel.table.opened.length,
      (w.kernel.table.closed.map Prod.fst).count n = 1) := by
  have h := inv_of_run hrun
  refine ⟨fun i j s s' hi hj hpos heq ↦ ?_, fun i s hi hpos ↦ ?_, h.badCloses,
    fun e t hst ↦ (move_of_step hst).closed h, fun hnone n hn ↦ ?_⟩
  · refine h.unique i j s.mFd.toNat ?_ ?_
    · rw [holds_eq hi, Socket.held_of_nonneg hpos]
    · rw [holds_eq hj, heq, Socket.held_of_nonneg (heq ▸ hpos)]
  · exact h.exists_opening ((holds_eq hi).trans (Socket.held_of_nonneg hpos))
  · exact h.closed_once (fun i ↦ holds_eq_none (hnone i)) hn

/-- A server that fails to bind and starts again, after a client was accepted and closed whose
number is used once more. -/
theorem descriptors_closed_once_restart : ∃ w : World Bool,
    exec step World.init [.socket false (.construct (-1)), .tcp false (.start 3 false true),
      .tcp false (.acceptClient 4 true), .socket true .destruct,
      .tcp false (.start 4 true true), .socket false .destruct] = some w ∧
    w.kernel.table.opened = [3, 4, 4] ∧ (w.kernel.table.closed.map Prod.fst).count 2 = 1 := by
  have hrun : exec step (World.init : World Bool) [.socket false (.construct (-1)),
      .tcp false (.start 3 false true), .tcp false (.acceptClient 4 true), .socket true .destruct,
      .tcp false (.start 4 true true), .socket false .destruct] = some _ := rfl
  obtain ⟨-, -, -, -, honce⟩ := descriptors_closed_once _ _ hrun
  refine ⟨_, hrun, rfl, honce (fun i ↦ ?_) 2 (by decide)⟩
  cases i <;> rfl

end World

end Io

end FastInAHurry
