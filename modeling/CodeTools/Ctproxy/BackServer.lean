import CodeTools.Lib.Descriptor
import CodeTools.ServerEpoll.Child

/-!
# `connect_to_back_server` of `ctchild.c`

The addresses of the back server are tried one after the other. `child.c` of
`server_epoll` has the same function, and both callers know a failure by its
sign.
-/

namespace code_tools.ctproxy.back_server

open descriptor

/-- What `socket` and `connect` get from an address. -/
structure addrinfo where
  ai_family : Int
  ai_socktype : Int
  ai_protocol : Int
  ai_addr : List UInt8
deriving DecidableEq, Repr

/-- What a descriptor refers to; a socket has a peer once it is connected. -/
inductive File where
  | socket (ai_family ai_socktype ai_protocol : Int) (peer : Option (List UInt8))
  | other
deriving DecidableEq, Repr

def addrinfo.file (p : addrinfo) (peer : Option (List UInt8)) : File :=
  .socket p.ai_family p.ai_socktype p.ai_protocol peer

/-- An address with whether `socket` and `connect` succeed for it. -/
structure Attempt where
  p : addrinfo
  socket : Bool
  connect : Bool
deriving DecidableEq, Repr

def Attempt.Succeeds (attempt : Attempt) : Prop := attempt.socket = true ∧ attempt.connect = true

/-- The loop over the addresses, with `sockfd` where it breaks off. -/
def connect_loop (files : Table File) : List Attempt → Table File × Option Nat
  | [] => (files, none)
  | attempt :: servinfo =>
    if attempt.socket = false then connect_loop files servinfo
    else
      let sockfd := files.lowest_free
      if attempt.connect = false then
        connect_loop ((files.insert sockfd (attempt.p.file none)).close sockfd) servinfo
      else (files.insert sockfd (attempt.p.file (some attempt.p.ai_addr)), some sockfd)

/-- `getaddrinfo` yields a list or an error, which is not 0. -/
def connect_to_back_server (files : Table File) (getaddrinfo : Except Int (List Attempt)) : Table File × Int :=
  match getaddrinfo with
  | .error _ => (files, 1)
  | .ok servinfo =>
    match connect_loop files servinfo with
    | (files, none) => (files, -1)
    | (files, some sockfd) => (files, sockfd)

/-- There are no addresses without a list. -/
def addresses : Except Int (List Attempt) → List Attempt
  | .error _ => []
  | .ok servinfo => servinfo

/-- What the callers expect of the value and of the descriptors. -/
structure Delivers (attempts : List Attempt) (files files' : Table File) (rc : Int) : Prop where
  connected : ∀ fd : Nat, rc = fd → ∃ attempt ∈ attempts, attempt.Succeeds ∧ files.get? fd = none ∧
    files'.get? fd = some (attempt.p.file (some attempt.p.ai_addr))
  negative : rc < 0 ↔ ∀ attempt ∈ attempts, ¬attempt.Succeeds
  closed : ∀ k : Nat, rc ≠ k → files'.get? k = files.get? k

/-- A loop that has come to its end has no socket left over. -/
structure Exhausted (attempts : List Attempt) (files files' : Table File) : Prop where
  none_succeeds : ∀ attempt ∈ attempts, ¬attempt.Succeeds
  closed : ∀ k, files'.get? k = files.get? k

/-- A loop that has broken off has left the socket of the last address it tried. -/
structure Connected (attempts : List Attempt) (files files' : Table File) (sockfd : Nat) : Prop where
  new : files.get? sockfd = none
  socket : ∃ attempt ∈ attempts, attempt.Succeeds ∧
    files'.get? sockfd = some (attempt.p.file (some attempt.p.ai_addr))
  closed : ∀ k, k ≠ sockfd → files'.get? k = files.get? k

/-- An attempt that fails leaves the descriptors to the ones after it. -/
theorem Exhausted.cons {attempt : Attempt} {attempts : List Attempt} {files files₁ files' : Table File}
    (hfails : ¬attempt.Succeeds) (hsame : ∀ k, files₁.get? k = files.get? k)
    (hrest : Exhausted attempts files₁ files') : Exhausted (attempt :: attempts) files files' := by
  refine ⟨?_, fun k => (hrest.closed k).trans (hsame k)⟩
  simpa using ⟨hfails, hrest.none_succeeds⟩

theorem Connected.cons {attempt : Attempt} {attempts : List Attempt} {files files₁ files' : Table File}
    {sockfd : Nat} (hsame : ∀ k, files₁.get? k = files.get? k)
    (hrest : Connected attempts files₁ files' sockfd) : Connected (attempt :: attempts) files files' sockfd := by
  obtain ⟨found, hmem, hsocket⟩ := hrest.socket
  refine ⟨?_, ⟨found, List.mem_cons_of_mem attempt hmem, hsocket⟩, ?_⟩
  · rw [← hsame, hrest.new]
  · exact fun k hk => (hrest.closed k hk).trans (hsame k)

theorem connect_loop_spec (files : Table File) (attempts : List Attempt) :
    (∃ files', connect_loop files attempts = (files', none) ∧ Exhausted attempts files files') ∨
      ∃ files' sockfd, connect_loop files attempts = (files', some sockfd) ∧
        Connected attempts files files' sockfd := by
  induction attempts generalizing files with
  | nil => exact Or.inl ⟨files, rfl, ⟨by simp, fun _ => rfl⟩⟩
  | cons attempt attempts ih =>
    rw [connect_loop]
    by_cases hsocket : attempt.socket = false
    · rw [if_pos hsocket]
      have hfails : ¬attempt.Succeeds := by simp [Attempt.Succeeds, hsocket]
      obtain ⟨files', hloop, hrest⟩ | ⟨files', sockfd, hloop, hrest⟩ := ih files
      · exact Or.inl ⟨files', hloop, hrest.cons hfails fun _ => rfl⟩
      · exact Or.inr ⟨files', sockfd, hloop, hrest.cons fun _ => rfl⟩
    rw [if_neg hsocket]
    by_cases hconnect : attempt.connect = false
    · rw [if_pos hconnect]
      have hfails : ¬attempt.Succeeds := by simp [Attempt.Succeeds, hconnect]
      have hsame := Table.get?_close_insert (Table.get?_lowest_free files) (attempt.p.file none)
      obtain ⟨files', hloop, hrest⟩ | ⟨files', sockfd, hloop, hrest⟩ :=
        ih ((files.insert files.lowest_free (attempt.p.file none)).close files.lowest_free)
      · exact Or.inl ⟨files', hloop, hrest.cons hfails hsame⟩
      · exact Or.inr ⟨files', sockfd, hloop, hrest.cons hsame⟩
    · rw [if_neg hconnect]
      refine Or.inr ⟨_, _, rfl, by simp, ⟨attempt, by simp, ?_, by simp [Table.get?_insert]⟩, ?_⟩
      · exact ⟨by simpa using hsocket, by simpa using hconnect⟩
      · intro k hk
        simp [Table.get?_insert, hk]

/-- With a list of addresses the callers get what they expect. -/
theorem connect_to_back_server_delivers (files : Table File) (servinfo : List Attempt) :
    Delivers servinfo files (connect_to_back_server files (.ok servinfo)).1
      (connect_to_back_server files (.ok servinfo)).2 := by
  unfold connect_to_back_server
  dsimp only
  obtain ⟨files', hloop, hrest⟩ | ⟨files', sockfd, hloop, hrest⟩ := connect_loop_spec files servinfo
  · rw [hloop]
    refine ⟨fun fd hfd => by dsimp only at hfd; omega, ?_, fun k _ => hrest.closed k⟩
    exact iff_of_true (show (-1 : Int) < 0 by decide) hrest.none_succeeds
  · rw [hloop]
    obtain ⟨found, hmem, hsucceeds, hget⟩ := hrest.socket
    refine ⟨?_, ?_, fun k hk => hrest.closed k fun heq => hk (congrArg Nat.cast heq.symm)⟩
    · intro fd hfd
      obtain rfl : sockfd = fd := Int.ofNat.inj hfd
      exact ⟨found, hmem, hsucceeds, hrest.new, hget⟩
    · refine iff_of_false (by dsimp only; omega) ?_
      exact fun hnone => hnone found hmem hsucceeds

/-- The child of `server_epoll` tells the client that there is no back server exactly
    when no address could be connected. -/
theorem refused_iff (files : Table File) (servinfo : List Attempt) (s : server_epoll.child.Child)
    (events : List server_epoll.child.Event) (ndelay_on epoll_ctl : Bool) :
    (server_epoll.child.connected s events (connect_to_back_server files (.ok servinfo)).2 ndelay_on
        epoll_ctl).control = .refuse "@ERROR: SYSTEM ERROR 1010\n" 1010 ↔
      ∀ attempt ∈ servinfo, ¬attempt.Succeeds := by
  rw [← (connect_to_back_server_delivers files servinfo).negative]
  generalize (connect_to_back_server files (.ok servinfo)).2 = rc
  unfold server_epoll.child.connected
  by_cases hneg : rc < 0
  · simp [hneg]
  · cases ndelay_on <;> cases epoll_ctl <;> simp [hneg]

/-- For every table, every outcome of `getaddrinfo` and all outcomes of `socket` and
    `connect` along its list, the result is a socket that was connected, or negative,
    with all other sockets closed, exactly when `getaddrinfo` succeeds. -/
theorem connect_to_back_server_delivers_iff (files : Table File) (getaddrinfo : Except Int (List Attempt)) :
    Delivers (addresses getaddrinfo) files (connect_to_back_server files getaddrinfo).1
        (connect_to_back_server files getaddrinfo).2 ↔
      ∃ servinfo, getaddrinfo = .ok servinfo := by
  cases getaddrinfo with
  | ok servinfo => exact iff_of_true (connect_to_back_server_delivers files servinfo) ⟨servinfo, rfl⟩
  | error rv =>
    refine iff_of_false ?_ (by simp)
    intro hdelivers
    obtain ⟨attempt, hmem, _⟩ := hdelivers.connected 1 rfl
    exact absurd hmem List.not_mem_nil

/-- The descriptors of the child: its standard ones only. -/
def standard_files : Table File := [(0, .other), (1, .other), (2, .other)]

/-- The name is unknown, and the caller takes 1 for the descriptor of its socket. -/
theorem unresolved_name_accepted :
    (connect_to_back_server standard_files (.error (-2))).2 = 1 ∧ standard_files.get? 1 = some .other ∧
      ¬Delivers (addresses (.error (-2))) standard_files (connect_to_back_server standard_files (.error (-2))).1
        (connect_to_back_server standard_files (.error (-2))).2 := by
  refine ⟨rfl, rfl, fun hdelivers => ?_⟩
  obtain ⟨attempt, hmem, _⟩ := hdelivers.connected 1 rfl
  exact absurd hmem List.not_mem_nil

end code_tools.ctproxy.back_server
