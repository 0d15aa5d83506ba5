import FastInAHurry.Io.Socket
import FastInAHurry.Library.Runs

/-!
# UDP servers

The embedding of `UdpBase` and `UdpServer` of `io/Udp.hh`, as far as their sockets go. A move
transfers the descriptor and leaves -1 behind, but it copies `m_started`: what is left of a server
that had been started still claims to be, and its `start` returns success without a socket.

That is the one way in which `start` can be wrong. The flag is set after the socket was created and
bound, both travel together to the target of a move, and an object that was not moved from keeps
them until something is moved into it.
-/

namespace FastInAHurry

open Descriptors Runs

namespace Io

inductive UdpError where
  | badSocket
  | bindFail
  | listenFail
  | connectFail
  | acceptFail
  | sendFail
  | recvFail
  | invalidIp
deriving DecidableEq, Repr

structure UdpServer where
  mSock : Socket
  mStarted : Bool
deriving DecidableEq, Repr

namespace UdpServer

def construct : UdpServer := ⟨⟨-1⟩, false⟩

/-- The new server and what is left of the other one. -/
def moveConstruct (other : UdpServer) : UdpServer × UdpServer :=
  let (mSock, left) := Socket.moveConstruct other.mSock
  (⟨mSock, other.mStarted⟩, { other with mSock := left })

/-- The move assignment, the two being different objects. -/
def moveAssign (k : Kernel) (s other : UdpServer) : Kernel × UdpServer × UdpServer :=
  let (k, mSock, left) := s.mSock.moveAssign k other.mSock
  (k, ⟨mSock, other.mStarted⟩, { other with mSock := left })

def destroy (k : Kernel) (s : UdpServer) : Kernel := s.mSock.destroy k

/-- `create_socket()`, where `::socket` returns `fd`. -/
def createSocket (k : Kernel) (mSock : Socket) (fd : ℤ) :
    Option (Except UdpError Unit × Kernel × Socket) :=
  (k.returns fd).map fun k ↦
    if fd < 0 then (.error .badSocket, k, mSock) else (.ok (), mSock.assign k fd)

/-- `start()`, where `::socket` returns `fd` if it is called. -/
def start (k : Kernel) (s : UdpServer) (fd : ℤ) (binds : Bool) :
    Option (Except UdpError Unit × Kernel × UdpServer) :=
  if s.mStarted then some (.ok (), k, s)
  else
    (createSocket k s.mSock fd).map fun
      | (.error e, k, mSock) => (.error e, k, { s with mSock := mSock })
      | (.ok _, k, mSock) =>
        match k.bind mSock.mFd binds with
        | (false, k) => (.error .bindFail, k, { s with mSock := mSock })
        | (true, k) => (.ok (), k, ⟨mSock, true⟩)

inductive Op (ι : Type*) where
  | construct
  | moveConstruct (other : ι)
  | moveAssign (other : ι)
  | start (fd : ℤ) (binds : Bool)
  | destruct

end UdpServer

structure Servers (ι : Type*) where
  kernel : Kernel
  servers : ι → Option UdpServer

namespace Servers

variable {ι : Type*}

def init : Servers ι where
  kernel := Kernel.init
  servers := fun _ ↦ none

/-- The sockets of the servers. -/
def world (s : Servers ι) : World ι := ⟨s.kernel, fun i ↦ (s.servers i).map UdpServer.mSock⟩

variable [DecidableEq ι]

def put (s : Servers ι) (i : ι) (o : Option UdpServer) : Servers ι :=
  { s with servers := Function.update s.servers i o }

/-- An operation on the server that the event names. -/
def step (s : Servers ι) (e : ι × UdpServer.Op ι) : Option (Servers ι) :=
  let i := e.1
  match e.2, s.servers i with
  | .construct, none => some (s.put i (some UdpServer.construct))
  | .moveConstruct j, none =>
    (s.servers j).map fun other ↦
      let (server, other) := other.moveConstruct
      (s.put i (some server)).put j (some other)
  | .moveAssign j, some server =>
    if i ≠ j then
      (s.servers j).map fun other ↦
        let (k, server, other) := server.moveAssign s.kernel other
        ({ s with kernel := k }.put i (some server)).put j (some other)
    else some s
  | .start fd binds, some server =>
    (server.start s.kernel fd binds).map fun r ↦ { s with kernel := r.2.1 }.put i (some r.2.2)
  | .destruct, some server => some ({ s with kernel := server.destroy s.kernel }.put i none)
  | _, _ => none

/-- The socket has an open descriptor on which `bind` has succeeded. -/
def Bound (k : Kernel) (mSock : Socket) : Prop :=
  mSock.valid = true ∧ ∃ n, k.table.entries mSock.mFd.toNat = some n ∧ n ∈ k.bound

/-- A started server has a bound socket, unless it was moved from. -/
def Fine (k : Kernel) (server : UdpServer) : Prop :=
  server.mStarted = true → server.mSock.valid = true → Bound k server.mSock

structure Inv (s : Servers ι) : Prop where
  world : World.Inv s.world
  fine : ∀ i server, s.servers i = some server → Fine s.kernel server

variable {s t : Servers ι} {i j : ι} {k k' : Kernel} {server other : UdpServer} {mSock : Socket}
  {fd : ℤ} {binds : Bool}

omit [DecidableEq ι] in
theorem world_eq (hi : s.servers i = some server) : s.world.sockets i = some server.mSock :=
  congrArg (Option.map UdpServer.mSock) hi

omit [DecidableEq ι] in
theorem world_eq_none (hi : s.servers i = none) : s.world.sockets i = none :=
  congrArg (Option.map UdpServer.mSock) hi

/-! ## What keeps a socket bound -/

theorem returns_fail : k.returns (-1) = some k := rfl

theorem nonneg_of_valid (h : mSock.valid = true) : 0 ≤ mSock.mFd := of_decide_eq_true h

theorem Bound.frame (h : Bound k mSock)
    (hentries : k'.table.entries mSock.mFd.toNat = k.table.entries mSock.mFd.toNat)
    (hbound : k.bound <+: k'.bound) : Bound k' mSock := by
  obtain ⟨hvalid, n, hn, hmem⟩ := h
  exact ⟨hvalid, n, hentries.trans hn, hbound.subset hmem⟩

/-- The kernel opens only what is not open. -/
theorem Bound.returns (h : Bound k mSock) (hk : k.returns fd = some k') : Bound k' mSock := by
  rcases Kernel.returns_cases hk with ⟨-, rfl⟩ | ⟨-, hclosed, rfl⟩
  · exact h
  · -- the new descriptor is not that of the socket, which is open
    refine h.frame (Function.update_of_ne (fun heq ↦ ?_) ..) List.prefix_rfl
    obtain ⟨-, n, hn, -⟩ := h
    rw [heq, hclosed] at hn
    cases hn

/-- Closing one descriptor leaves the others open. -/
theorem Bound.closeHeld (h : Bound k mSock) {closing : Socket}
    (hne : closing.valid = true → mSock.mFd.toNat ≠ closing.mFd.toNat) :
    Bound (closing.closeHeld k) mSock := by
  unfold Socket.closeHeld
  split
  · next hpos =>
    refine h.frame ?_ List.prefix_rfl
    unfold Kernel.close Table.close
    split
    · exact Function.update_of_ne (hne (decide_eq_true hpos)) ..
    · rfl
  · exact h

theorem Bound.bind (h : Bound k mSock) (n : ℕ) :
    Bound { k with bound := k.bound ++ [n] } mSock :=
  h.frame rfl (List.prefix_append ..)

omit [DecidableEq ι] in
/-- Two servers do not hold the same descriptor. -/
theorem Inv.mFd_ne (h : Inv s) (hij : j ≠ i) (hi : s.servers i = some server)
    (hj : s.servers j = some other) (hvalid : other.mSock.valid = true) :
    server.mSock.valid = true → other.mSock.mFd.toNat ≠ server.mSock.mFd.toNat := by
  intro hvalid' heq
  have hholds : ∀ {i server}, s.servers i = some server → server.mSock.valid = true →
      s.world.holds i = some server.mSock.mFd.toNat := by
    intro i server hi hvalid
    rw [World.holds_eq (world_eq hi), Socket.held_of_nonneg (nonneg_of_valid hvalid)]
  exact hij (h.world.unique j i _ (hholds hj hvalid) (heq ▸ hholds hi hvalid'))

omit [DecidableEq ι] in
/-- The other servers when one closes its descriptor, after the kernel may have opened another. -/
theorem Inv.fine_other (h : Inv s) (hij : j ≠ i) (hi : s.servers i = some server)
    (hj : s.servers j = some other) (hk : s.kernel.returns fd = some k) :
    Fine (server.mSock.closeHeld k) other := fun hstarted hvalid ↦
  ((h.fine j other hj hstarted hvalid).returns hk).closeHeld (h.mFd_ne hij hi hj hvalid)

/-! ## What a step does -/

theorem world_put (o : Option UdpServer) :
    (s.put i o).world = s.world.put i (o.map UdpServer.mSock) := by
  unfold world put World.put
  congr 1
  funext j
  rcases eq_or_ne j i with rfl | hne
  · simp
  · simp [hne]

/-- The servers when one of them is replaced. -/
theorem fine_put (hothers : ∀ j other, j ≠ i → s.servers j = some other → Fine s.kernel other)
    {o : Option UdpServer} (ho : ∀ server, o = some server → Fine s.kernel server) :
    ∀ j other, (s.put i o).servers j = some other → Fine (s.put i o).kernel other := by
  intro j other hj
  rcases RefCount.update_eq_some_cases hj with ⟨-, ho'⟩ | ⟨hne, hj⟩
  · exact ho other ho'
  · exact hothers j other hne hj

/-- What is left of a server that was moved from has no socket. -/
theorem fine_left (started : Bool) : Fine k ⟨⟨-1⟩, started⟩ := fun _ hvalid ↦ nomatch hvalid

omit [DecidableEq ι] in
theorem Inv.init : Inv (init : Servers ι) where
  world := Descriptors.Inv.init
  fine := nofun

theorem Inv.construct (h : Inv s) (hi : s.servers i = none) :
    Inv (s.put i (some UdpServer.construct)) where
  world := by
    rw [world_put]
    exact World.Inv.move h.world (.construct (world_eq_none hi) rfl)
  fine := by
    refine fine_put (fun j other _ ↦ h.fine j other) fun server hserver ↦ ?_
    exact Option.some.inj hserver ▸ fine_left false

theorem Inv.moveConstruct (h : Inv s) (hi : s.servers i = none) (hj : s.servers j = some other) :
    Inv ((s.put i (some other.moveConstruct.1)).put j (some other.moveConstruct.2)) where
  world := by
    rw [world_put, world_put]
    exact World.Inv.move h.world (.moveConstruct (world_eq_none hi) (world_eq hj))
  fine := by
    refine fine_put (fun l server _ ↦ ?_) fun server hserver ↦ ?_
    · -- the new server has both the flag and the socket of the old one
      refine fine_put (fun l server _ ↦ h.fine l server) (fun server hserver ↦ ?_) l server
      exact Option.some.inj hserver ▸ h.fine j other hj
    · exact Option.some.inj hserver ▸ fine_left _

theorem Inv.moveAssign (h : Inv s) (hij : i ≠ j) (hi : s.servers i = some server)
    (hj : s.servers j = some other) :
    Inv (({ s with kernel := (server.moveAssign s.kernel other).1 }.put i
      (some (server.moveAssign s.kernel other).2.1)).put j
      (some (server.moveAssign s.kernel other).2.2)) where
  world := by
    rw [world_put, world_put]
    exact World.Inv.move h.world (.moveAssign hij (world_eq hi) (world_eq hj))
  fine := by
    have hkept : ∀ l other, l ≠ i → s.servers l = some other →
        Fine (server.mSock.closeHeld s.kernel) other := fun l other hne hl ↦
      h.fine_other hne hi hl returns_fail
    refine fine_put (fun l left _ ↦ ?_) fun left hleft ↦ ?_
    · refine fine_put (s := { s with kernel := (server.moveAssign s.kernel other).1 }) hkept
        (fun taken htaken ↦ ?_) l left
      exact Option.some.inj htaken ▸ hkept j other hij.symm hj
    · exact Option.some.inj hleft ▸ fine_left _

theorem Inv.destruct (h : Inv s) (hi : s.servers i = some server) :
    Inv ({ s with kernel := server.destroy s.kernel }.put i none) where
  world := by
    rw [world_put]
    exact World.Inv.move h.world (.destruct (world_eq hi))
  fine := by
    refine fine_put (s := { s with kernel := server.destroy s.kernel }) (fun l other hne hl ↦ ?_) ?_
    · exact h.fine_other hne hi hl returns_fail
    · exact fun server hserver ↦ nomatch hserver

/-! ## Starting -/

/-- Everything `start` can do. -/
inductive Starts (k : Kernel) (server : UdpServer) (fd : ℤ) :
    Except UdpError Unit → Kernel → UdpServer → Prop
  | already (hstarted : server.mStarted = true) : Starts k server fd (.ok ()) k server
  | noSocket (hk : k.returns fd = some k) (hfd : fd < 0) (hstarted : server.mStarted = false) :
      Starts k server fd (.error .badSocket) k server
  | noBind {k' : Kernel} (hk : k.returns fd = some k') (hfd : 0 ≤ fd)
      (hstarted : server.mStarted = false) :
      Starts k server fd (.error .bindFail) (server.mSock.closeHeld k') ⟨⟨fd⟩, false⟩
  | bound {k' : Kernel} {n : ℕ} (hk : k.returns fd = some k') (hfd : 0 ≤ fd)
      (hstarted : server.mStarted = false)
      (hn : (server.mSock.closeHeld k').table.entries fd.toNat = some n) :
      Starts k server fd (.ok ())
        { server.mSock.closeHeld k' with bound := (server.mSock.closeHeld k').bound ++ [n] }
        ⟨⟨fd⟩, true⟩

theorem starts_of_start {r : Except UdpError Unit} {server' : UdpServer}
    (hstart : server.start k fd binds = some (r, k', server')) :
    Starts k server fd r k' server' := by
  unfold UdpServer.start at hstart
  split at hstart
  · next hstarted =>
    cases hstart
    exact .already hstarted
  · next hstarted =>
    rw [Bool.not_eq_true] at hstarted
    obtain ⟨⟨r', k₁, mSock'⟩, hsocket, heq⟩ := Option.map_eq_some_iff.mp hstart
    obtain ⟨k₂, hk, hres⟩ := Option.map_eq_some_iff.mp hsocket
    split at hres
    · next hneg =>
      cases hres
      cases heq
      rcases Kernel.returns_cases hk with ⟨-, rfl⟩ | ⟨hpos, -⟩
      · exact .noSocket hk hneg hstarted
      · exact absurd hpos (Int.not_le.mpr hneg)
    · next hpos =>
      cases hres
      rcases Kernel.bind_cases (server.mSock.closeHeld k₂) fd binds with hb | ⟨n, -, hn, hb⟩
      · simp only [hb] at heq
        cases heq
        exact hstarted ▸ .noBind hk (Int.not_lt.mp hpos) hstarted
      · simp only [hb] at heq
        cases heq
        exact .bound hk (Int.not_lt.mp hpos) hstarted hn

theorem put_self (hi : s.servers i = some server) :
    { s with kernel := s.kernel }.put i (some server) = s := by
  have hsame : Function.update s.servers i (some server) = s.servers := by
    rw [← hi, Function.update_eq_self]
  unfold put
  rw [hsame]

/-- A server that is not started gets a new socket. -/
theorem Inv.replaced (h : Inv s) (hi : s.servers i = some server)
    (hk : s.kernel.returns fd = some k) (bound : List ℕ) (started : Bool) :
    World.Inv ({ s with kernel := { server.mSock.closeHeld k with bound := bound } }.put i
      (some ⟨⟨fd⟩, started⟩)).world := by
  have hreturns : s.world.returns fd = some ⟨k, s.world.sockets⟩ := by
    rw [World.returns, show s.world.kernel = s.kernel from rfl, hk, Option.map_some]
  rw [world_put]
  exact World.Inv.move h.world (.bind (.replace (world_eq hi) hreturns) bound)

theorem Inv.start (h : Inv s) (hi : s.servers i = some server) {r : Except UdpError Unit}
    {server' : UdpServer} (hstart : Starts s.kernel server fd r k' server') :
    Inv ({ s with kernel := k' }.put i (some server')) := by
  cases hstart with
  | already | noSocket =>
    rw [put_self hi]
    exact h
  | @noBind k₁ hk hfd hstarted =>
    refine ⟨h.replaced hi hk _ _, ?_⟩
    refine fine_put (s := { s with kernel := server.mSock.closeHeld k₁ })
      (fun j other hne hj ↦ h.fine_other hne hi hj hk) fun server' hserver ↦ ?_
    obtain rfl := Option.some.inj hserver
    exact nofun
  | @bound k₁ n hk hfd hstarted hn =>
    refine ⟨h.replaced hi hk _ _, ?_⟩
    refine fine_put (s := { s with kernel := _ })
      (fun j other hne hj hother hvalid ↦ ?_) fun server' hserver ↦ ?_
    · exact (h.fine_other hne hi hj hk hother hvalid).bind n
    · obtain rfl := Option.some.inj hserver
      exact fun _ hvalid ↦ ⟨hvalid, n, hn, List.mem_append_right _ List.mem_cons_self⟩

/-! ## Runs -/

theorem Inv.step (h : Inv s) {e : ι × UdpServer.Op ι} (hst : Servers.step s e = some t) :
    Inv t := by
  simp only [Servers.step] at hst
  split at hst <;> rename_i hi <;> try contradiction
  · exact Option.some.inj hst ▸ h.construct hi
  · obtain ⟨other, hj, rfl⟩ := Option.map_eq_some_iff.mp hst
    exact h.moveConstruct hi hj
  · split at hst
    · next hij =>
      obtain ⟨other, hj, rfl⟩ := Option.map_eq_some_iff.mp hst
      exact h.moveAssign hij hi hj
    · exact Option.some.inj hst ▸ h
  · obtain ⟨⟨r, k', server'⟩, hstart, rfl⟩ := Option.map_eq_some_iff.mp hst
    exact h.start hi (starts_of_start hstart)
  · exact Option.some.inj hst ▸ h.destruct hi

/-- **When `start` tells the truth**, in every run of constructions, moves, starts and destructions
of any number of servers, with calls of the kernel failing at will. A call of `start` that returns
success leaves the server with an open descriptor on which `bind` has succeeded if and only if it
was not called on a server that counts as started and has no socket, which is what a move leaves of
a started server. -/
theorem bound_of_start_iff (events : List (ι × UdpServer.Op ι)) (s : Servers ι)
    (hrun : exec step init events = some s) (i : ι) (server server' : UdpServer) (fd : ℤ)
    (binds : Bool) (k' : Kernel) (hi : s.servers i = some server)
    (hstart : server.start s.kernel fd binds = some (.ok (), k', server')) :
    Bound k' server'.mSock ↔ ¬(server.mStarted = true ∧ server.mSock.valid = false) := by
  have h : Inv s := exec_invariant (fun s e t hs hst ↦ hs.step hst) Inv.init hrun
  cases starts_of_start hstart with
  | already hstarted =>
    -- success without a call of the kernel, right as long as the socket is still there
    constructor
    · rintro ⟨hvalid, -⟩ ⟨-, hinvalid⟩
      cases hvalid.symm.trans hinvalid
    · intro hnot
      refine h.fine i server hi hstarted ?_
      by_contra hinvalid
      exact hnot ⟨hstarted, Bool.eq_false_iff.mpr hinvalid⟩
  | bound hk hfd hstarted hn =>
    refine ⟨fun _ ↦ ?_, fun _ ↦ ?_⟩
    · rintro ⟨hwas, -⟩
      cases hstarted.symm.trans hwas
    · exact ⟨decide_eq_true hfd, _, hn, List.mem_append_right _ List.mem_cons_self⟩

/-- A server that was started is moved: the target is bound, and starting the target again says
so. -/
theorem bound_of_start_iff_moved : ∃ s : Servers Bool,
    exec step init [(false, .construct), (false, .start 3 true), (true, .moveConstruct false)] =
      some s ∧ ∃ server k' server', s.servers true = some server ∧
        server.start s.kernel 7 true = some (.ok (), k', server') ∧ Bound k' server'.mSock := by
  have hrun : exec step (init : Servers Bool) [(false, .construct), (false, .start 3 true),
      (true, .moveConstruct false)] = some _ := rfl
  refine ⟨_, hrun, _, _, _, rfl, rfl, ?_⟩
  exact (bound_of_start_iff _ _ hrun true _ _ 7 true _ rfl rfl).mpr (by decide)

/-- Starting what is left of it returns success as well, without a socket. -/
theorem start_moved_from : ∃ s : Servers Bool,
    exec step init [(false, .construct), (false, .start 3 true), (true, .moveConstruct false)] =
      some s ∧ ∃ server k' server', s.servers false = some server ∧
        server.start s.kernel 7 true = some (.ok (), k', server') ∧ server'.mSock.mFd = -1 ∧
        ¬Bound k' server'.mSock := by
  refine ⟨_, rfl, _, _, _, rfl, rfl, rfl, fun h ↦ ?_⟩
  cases h.1

end Servers

end Io

end FastInAHurry
