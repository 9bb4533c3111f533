import CodeTools.Lib.Slots
import CodeTools.Ctproxy.Ctserver

/-!
# The slots of `ctproxy`

A slot is marked used before its child is created. One whose child could not be
created has no pipe, and a hang-up only gives back the slot of the pipe that it is
about.
-/

namespace code_tools.ctproxy.ctserver

open cmem machine slots syscall

/-! ## What becomes of a slot -/

/-- What an event does to the slots and to the counter of children. -/
inductive Turn where
  | nothing
  /-- A slot is taken, and no child is created. -/
  | failed
  /-- A slot is taken for a child. -/
  | forked
  /-- A hang-up gives a slot back. -/
  | released
  /-- A hang-up is about no slot. -/
  | stray
deriving DecidableEq, Repr

def Creation.succeeds : Creation → Bool
  | .forked _ _ _ => true
  | _ => false

def turn (s : Ctserver) : Command → Turn
  | .epoll_wait _ => .nothing
  | .event answers =>
    match s.epoll_evts with
    | [] => .nothing
    | evt :: _ =>
      if evt.epollerr then .nothing
      else if evt.epollin then
        if is_listen s evt.fd && (get_idle_idx_from_clients s).isSome then
          if answers.creation.succeeds then .forked else .failed
        else .nothing
      else if evt.epollhup && !is_listen s evt.fd then
        if (get_idx_with_sockfd s evt.fd).isSome then .released else .stray
      else .nothing

/-- The slots that are used. -/
def used (s : Ctserver) : Nat := passing Client.used s.max_connect s.clients_t

/-- A slot that is used without a pipe to a child. -/
def Client.lost (client : Client) : Bool := client.used && client.pfd_r = -1

def lost (s : Ctserver) : Nat := passing Client.lost s.max_connect s.clients_t

/-- The table has its full length, and a slot that is not used has no pipe. -/
structure Fit (s : Ctserver) : Prop where
  length : s.clients_t.length = s.max_connect + 1
  idle : ∀ client ∈ s.clients_t, client.used = false → client.pfd_r = -1

theorem fit_start (max_connect : Nat) (listen_socks : List Nat) (client_addr : ClientAddr) :
    Fit (start max_connect listen_socks client_addr) := by
  refine ⟨List.length_replicate, fun client hclient _ => ?_⟩
  rw [List.eq_of_mem_replicate hclient]
  rfl

/-- How the table and the counters are after a step, for what the step did. -/
inductive Moved (s s' : Ctserver) : Turn → Prop where
  | nothing (hclients : s'.clients_t = s.clients_t) (hrunning : s'.epoll_num_running = s.epoll_num_running)
      (hcreated : s'.created = s.created) : Moved s s' .nothing
  | failed (i : Nat) (client client' : Client) (hi : i < s.max_connect) (hclient : s.clients_t[i]? = some client)
      (hidle : client.used = false) (hused : client'.used = true) (hpfd_r : client'.pfd_r = client.pfd_r)
      (hclients : s'.clients_t = s.clients_t.set i client')
      (hrunning : s'.epoll_num_running = s.epoll_num_running) : Moved s s' .failed
  | forked (i : Nat) (client client' : Client) (hi : i < s.max_connect) (hclient : s.clients_t[i]? = some client)
      (hidle : client.used = false) (hused : client'.used = true) (hpfd_r : 0 ≤ client'.pfd_r)
      (hclients : s'.clients_t = s.clients_t.set i client')
      (hrunning : s'.epoll_num_running = s.epoll_num_running + 1) : Moved s s' .forked
  | released (i : Nat) (client : Client) (hi : i < s.max_connect) (hclient : s.clients_t[i]? = some client)
      (hused : client.used = true) (hpfd_r : 0 ≤ client.pfd_r)
      (hclients : s'.clients_t = s.clients_t.set i idle_client)
      (hrunning : s'.epoll_num_running = s.epoll_num_running - 1) (hcreated : s'.created = s.created) :
      Moved s s' .released
  | stray (hclients : s'.clients_t = s.clients_t) (hrunning : s'.epoll_num_running = s.epoll_num_running - 1)
      (hcreated : s'.created = s.created) : Moved s s' .stray

variable {s s' t t' : Ctserver}

/-- The states differ in nothing that is counted here. -/
structure Same (s t : Ctserver) : Prop where
  max_connect : t.max_connect = s.max_connect
  clients : t.clients_t = s.clients_t
  running : t.epoll_num_running = s.epoll_num_running
  created : t.created = s.created

theorem Moved.of_same {k : Turn} (hmoved : Moved s s' k) (hs : Same s t) (hs' : Same s' t') : Moved t t' k := by
  cases hmoved with
  | nothing hclients hrunning hcreated =>
    constructor
    · rw [hs'.clients, hclients, hs.clients]
    · rw [hs'.running, hrunning, hs.running]
    · rw [hs'.created, hcreated, hs.created]
  | failed i client client' hi hclient hidle hused hpfd_r hclients hrunning =>
    refine .failed i client client' (hs.max_connect ▸ hi) (hs.clients ▸ hclient) hidle hused hpfd_r ?_ ?_
    · rw [hs'.clients, hclients, hs.clients]
    · rw [hs'.running, hrunning, hs.running]
  | forked i client client' hi hclient hidle hused hpfd_r hclients hrunning =>
    refine .forked i client client' (hs.max_connect ▸ hi) (hs.clients ▸ hclient) hidle hused hpfd_r ?_ ?_
    · rw [hs'.clients, hclients, hs.clients]
    · rw [hs'.running, hrunning, hs.running]
  | released i client hi hclient hused hpfd_r hclients hrunning hcreated =>
    refine .released i client (hs.max_connect ▸ hi) (hs.clients ▸ hclient) hused hpfd_r ?_ ?_ ?_
    · rw [hs'.clients, hclients, hs.clients]
    · rw [hs'.running, hrunning, hs.running]
    · rw [hs'.created, hcreated, hs.created]
  | stray hclients hrunning hcreated =>
    constructor
    · rw [hs'.clients, hclients, hs.clients]
    · rw [hs'.running, hrunning, hs.running]
    · rw [hs'.created, hcreated, hs.created]

/-! ## The functions -/

theorem get_idle_idx_eq_some {i : Nat} (hidle : get_idle_idx_from_clients s = some i) :
    i < s.max_connect ∧ ∃ client, s.clients_t[i]? = some client ∧ client.used = false := by
  obtain ⟨hi, client, hclient, hused⟩ := findIdx?_take_eq_some hidle
  exact ⟨hi, client, hclient, Bool.not_eq_true' _ ▸ hused⟩

/-- No slot is idle exactly when all are used. -/
theorem Fit.get_idle_idx_eq_none_iff (hfit : Fit s) :
    get_idle_idx_from_clients s = none ↔ used s = s.max_connect :=
  findIdx?_not_eq_none_iff (by rw [hfit.length]; exact Nat.le_succ _)

theorem create_slots (s : Ctserver) (i : Nat) (connfd : Int) (creation : Creation) :
    (create_child_and_exec_with_idx_clientfd s i connfd creation).1.max_connect = s.max_connect ∧
      (create_child_and_exec_with_idx_clientfd s i connfd creation).1.epoll_num_running = s.epoll_num_running ∧
      (creation.succeeds = false →
        (create_child_and_exec_with_idx_clientfd s i connfd creation).2 ≠ 0 ∧
        (create_child_and_exec_with_idx_clientfd s i connfd creation).1.clients_t = s.clients_t) ∧
      (creation.succeeds = true →
        (create_child_and_exec_with_idx_clientfd s i connfd creation).2 = 0 ∧
        ∃ (pid : Nat) (pfd_r pfd_w : Nat),
          (create_child_and_exec_with_idx_clientfd s i connfd creation).1.clients_t =
            s.clients_t.modify i fun client => { client with pid := pid, pfd_r := pfd_r, pfd_w := pfd_w }) := by
  cases creation with
  | pipe1_failed => exact ⟨rfl, rfl, fun _ => ⟨by simp [create_child_and_exec_with_idx_clientfd], rfl⟩, nofun⟩
  | pipe2_failed => exact ⟨rfl, rfl, fun _ => ⟨by simp [create_child_and_exec_with_idx_clientfd], rfl⟩, nofun⟩
  | fork_failed => exact ⟨rfl, rfl, fun _ => ⟨by simp [create_child_and_exec_with_idx_clientfd], rfl⟩, nofun⟩
  | forked pfd1 pfd2 pid => exact ⟨rfl, rfl, nofun, fun _ => ⟨rfl, pid, pfd2.1, pfd1.2, rfl⟩⟩

theorem modify_of_getElem? {α : Type} {l : List α} {i : Nat} {x : α} (hx : l[i]? = some x) (f : α → α) :
    l.modify i f = l.set i (f x) := by
  rw [List.modify_eq_set_getElem?, hx]
  rfl

theorem Same.symm (h : Same s t) : Same t s := ⟨h.max_connect.symm, h.clients.symm, h.running.symm, h.created.symm⟩

theorem Same.trans (h : Same s s') (h' : Same s' t) : Same s t :=
  ⟨h'.max_connect.trans h.max_connect, h'.clients.trans h.clients, h'.running.trans h.running,
    h'.created.trans h.created⟩

theorem Same.get_idle_idx_eq (h : Same s t) : get_idle_idx_from_clients t = get_idle_idx_from_clients s := by
  unfold get_idle_idx_from_clients find_client
  rw [h.clients, h.max_connect]

theorem accept_loop_same {accept_times : Nat} {accepts : List AcceptResult} {connfd : Int}
    (hloop : accept_loop s accept_times accepts = .ok (s', connfd)) : Same s s' := by
  rcases accept_loop_cases hloop with ⟨_, fd, client_addr, _, rfl⟩ | ⟨_, _, rfl⟩
  · exact ⟨rfl, rfl, rfl, rfl⟩
  · exact ⟨rfl, rfl, rfl, rfl⟩

theorem after_accept_same (hidle : get_idle_idx_from_clients s = none) (connfd : Int) (answers : Answers) :
    Same s (after_accept s connfd answers) := by
  unfold after_accept
  rw [hidle]
  exact ⟨rfl, rfl, rfl, rfl⟩

/-- Where a slot is idle it is taken, whether a child is created for it or not. -/
theorem after_accept_moved {i : Nat} (hidle : get_idle_idx_from_clients s = some i) (connfd : Int)
    (answers : Answers) :
    (after_accept s connfd answers).max_connect = s.max_connect ∧
      Moved s (after_accept s connfd answers) (if answers.creation.succeeds then .forked else .failed) := by
  obtain ⟨hi, client, hclient, hused⟩ := get_idle_idx_eq_some hidle
  obtain ⟨s', hs'⟩ : ∃ s', s' = after_accept s connfd answers := ⟨_, rfl⟩
  rw [← hs']
  unfold after_accept at hs'
  rw [hidle] at hs'
  dsimp only at hs'
  rw [modify_of_getElem? hclient] at hs'
  generalize htaken : ({ client with used := true, fd := _, sid := _, ip := _, port := _, ip_hex := _ } : Client) =
    taken at hs'
  have htaken_used : taken.used = true := by rw [← htaken]
  have htaken_pfd_r : taken.pfd_r = client.pfd_r := by rw [← htaken]
  generalize hs₁ : ({ s with clients_t := _, taken := _ } : Ctserver) = s₁ at hs'
  obtain ⟨hmax, hrunning, hfailed, hforked⟩ := create_slots s₁ i connfd answers.creation
  generalize create_child_and_exec_with_idx_clientfd s₁ i connfd answers.creation = made at *
  obtain ⟨s₂, ret⟩ := made
  dsimp only at hs' hmax hrunning hfailed hforked
  cases hsucceeds : answers.creation.succeeds with
  | false =>
    obtain ⟨hret, hclients⟩ := hfailed hsucceeds
    rw [if_pos hret] at hs'
    subst hs' hs₁
    exact ⟨hmax, .failed i client taken hi hclient hused htaken_used htaken_pfd_r hclients hrunning⟩
  | true =>
    obtain ⟨hret, pid, pfd_r, pfd_w, hclients⟩ := hforked hsucceeds
    rw [if_neg (not_not_intro hret)] at hs'
    subst hs' hs₁
    rw [modify_of_getElem? (x := taken), List.set_set] at hclients
    · exact ⟨hmax, .forked i client { taken with pid := pid, pfd_r := pfd_r, pfd_w := pfd_w } hi hclient hused
        htaken_used (Int.natCast_nonneg pfd_r) hclients (congrArg (· + 1) hrunning)⟩
    · have hlt : i < s.clients_t.length := (List.getElem?_eq_some_iff.mp hclient).1
      rw [List.getElem?_set_self hlt]

theorem clean_client_slots {i : Nat} {client : Client} (hclient : s.clients_t[i]? = some client) :
    (clean_client_with_idx s i).max_connect = s.max_connect ∧
      (clean_client_with_idx s i).clients_t = s.clients_t.set i idle_client ∧
      (clean_client_with_idx s i).epoll_num_running = s.epoll_num_running ∧
      (clean_client_with_idx s i).created = s.created := by
  have hunless : ∀ (t : Ctserver) (fd : Int), ∃ closes,
      (if fd ≠ -1 then close_fd t fd else t) = { t with closes := closes } := by
    intro t fd
    split
    · exact ⟨_, rfl⟩
    · exact ⟨t.closes, rfl⟩
  unfold clean_client_with_idx
  rw [hclient]
  dsimp only
  obtain ⟨closes, hfd⟩ := hunless s client.fd
  rw [hfd]
  obtain ⟨closes', hpfd_r⟩ := hunless { s with closes := closes } client.pfd_r
  rw [hpfd_r]
  obtain ⟨closes'', hpfd_w⟩ := hunless { s with closes := closes' } client.pfd_w
  rw [hpfd_w]
  exact ⟨rfl, rfl, rfl, rfl⟩

/-- The slot of the pipe is given back, if there is one. -/
theorem hung_up_moved (s : Ctserver) (evt_fd : Nat) :
    (hung_up s evt_fd).max_connect = s.max_connect ∧
      Moved s (hung_up s evt_fd) (if (get_idx_with_sockfd s evt_fd).isSome then .released else .stray) := by
  unfold hung_up
  cases hidx : get_idx_with_sockfd s evt_fd with
  | none => exact ⟨rfl, .stray rfl rfl rfl⟩
  | some i =>
    obtain ⟨hi, client, hclient, htest⟩ := findIdx?_take_eq_some hidx
    rw [Bool.and_eq_true, decide_eq_true_iff] at htest
    obtain ⟨hmax, hclients, hrunning, hcreated⟩ := clean_client_slots hclient
    refine ⟨hmax, .released i client hi hclient htest.2 ?_ hclients (congrArg (· - 1) hrunning) hcreated⟩
    rw [htest.1]
    exact Int.natCast_nonneg evt_fd

/-! ## Steps -/

/-- What a step does is its turn. -/
theorem step_moved {command : Command} {u : Unit} (hstep : step s command = .ok (s', u)) :
    s'.max_connect = s.max_connect ∧ Moved s s' (turn s command) := by
  cases hevts : s.epoll_evts with
  | nil =>
    cases command with
    | event answers =>
      simp only [step, hevts] at hstep
      cases hstep
    | epoll_wait events =>
      simp only [step, hevts] at hstep
      cases hstep
      exact ⟨rfl, .nothing rfl rfl rfl⟩
  | cons evt evts =>
    cases command with
    | epoll_wait events =>
      simp only [step, hevts] at hstep
      cases hstep
    | event answers =>
      simp only [step, hevts] at hstep
      obtain ⟨t, hhandle, hdone⟩ := bind_eq_ok_iff.mp hstep
      cases hdone
      simp only [turn, hevts]
      unfold handle_event at hhandle
      dsimp only at hhandle
      by_cases herr : evt.epollerr = true
      · rw [if_pos herr] at hhandle
        cases hhandle
        rw [if_pos herr]
        exact ⟨rfl, .nothing rfl rfl rfl⟩
      rw [if_neg herr] at hhandle
      rw [if_neg herr]
      by_cases hin : evt.epollin = true
      · rw [if_pos hin] at hhandle
        rw [if_pos hin]
        split at hhandle
        · next hlisten =>
          have hlisten : is_listen s evt.fd = true := hlisten
          rw [hlisten, Bool.true_and]
          obtain ⟨⟨s₁, connfd⟩, hloop, hdone⟩ := bind_eq_ok_iff.mp hhandle
          cases hdone
          have hsame := accept_loop_same hloop
          have hsame : Same s s₁ := ⟨hsame.max_connect, hsame.clients, hsame.running, hsame.created⟩
          have hidle_eq : get_idle_idx_from_clients s₁ = get_idle_idx_from_clients s := hsame.get_idle_idx_eq
          cases hidle : get_idle_idx_from_clients s with
          | none =>
            have hfull := after_accept_same (hidle_eq.trans hidle) connfd answers
            have hall := hsame.trans hfull
            exact ⟨hall.max_connect, .nothing hall.clients hall.running hall.created⟩
          | some i =>
            obtain ⟨hmax, hmoved⟩ := after_accept_moved (hidle_eq.trans hidle) connfd answers
            refine ⟨hmax.trans hsame.max_connect, hmoved.of_same hsame.symm ⟨rfl, rfl, rfl, rfl⟩⟩
        · next hlisten =>
          have hlisten : is_listen s evt.fd = false := Bool.eq_false_iff.mpr hlisten
          cases hhandle
          rw [hlisten]
          exact ⟨rfl, .nothing rfl rfl rfl⟩
      · rw [if_neg hin] at hhandle
        rw [if_neg hin]
        split at hhandle
        · next hhup =>
          have hhup : (evt.epollhup && !is_listen s evt.fd) = true := hhup
          rw [if_pos hhup]
          cases hhandle
          obtain ⟨hmax, hmoved⟩ := hung_up_moved { s with epoll_evts := evts, sigchld_blocked := true } evt.fd
          change Moved _ _ (if (get_idx_with_sockfd s evt.fd).isSome then _ else _) at hmoved
          exact ⟨hmax, hmoved.of_same ⟨rfl, rfl, rfl, rfl⟩ ⟨rfl, rfl, rfl, rfl⟩⟩
        · next hhup =>
          have hhup : ¬(evt.epollhup && !is_listen s evt.fd) = true := hhup
          rw [if_neg hhup]
          cases hhandle
          exact ⟨rfl, .nothing rfl rfl rfl⟩

/-- What the turn says of the numbers. -/
theorem Moved.counts {k : Turn} (hfit : Fit s) (hmax : s'.max_connect = s.max_connect) (hmoved : Moved s s' k) :
    Fit s' ∧ used s' + [k].count .released = used s + ([k].count .forked + [k].count .failed) ∧
      s'.epoll_num_running + [k].count .released + [k].count .stray = s.epoll_num_running + [k].count .forked ∧
      lost s' = lost s + [k].count .failed := by
  have hset : ∀ {i : Nat} {client : Client}, s'.clients_t = s.clients_t.set i client →
      (client.used = false → client.pfd_r = -1) → Fit s' := by
    intro i client hclients hidle
    refine ⟨by rw [hclients, List.length_set, hfit.length, hmax], fun other hother hunused => ?_⟩
    rw [hclients] at hother
    rcases List.mem_or_eq_of_mem_set hother with hmem | rfl
    · exact hfit.idle other hmem hunused
    · exact hidle hunused
  have hchange : ∀ (test : Client → Bool) {i : Nat} {client client' : Client}, i < s.max_connect →
      s.clients_t[i]? = some client → s'.clients_t = s.clients_t.set i client' →
      passing test s'.max_connect s'.clients_t + (if test client then 1 else 0) =
        passing test s.max_connect s.clients_t + (if test client' then 1 else 0) := by
    intro test i client client' hi hclient hclients
    rw [hmax, hclients]
    exact passing_set_add test hi hclient client'
  have hsame : ∀ test : Client → Bool, s'.clients_t = s.clients_t →
      passing test s'.max_connect s'.clients_t = passing test s.max_connect s.clients_t := by
    intro test hclients
    rw [hmax, hclients]
  cases hmoved with
  | nothing hclients hrunning hcreated =>
    refine ⟨⟨by rw [hclients, hfit.length, hmax], hclients ▸ hfit.idle⟩, hsame _ hclients, ?_, hsame _ hclients⟩
    simp [hrunning]
  | failed i client client' hi hclient hidle hused hpfd_r hclients hrunning =>
    have hnone : client.pfd_r = -1 := hfit.idle client (List.mem_of_getElem? hclient) hidle
    have hcount : used s' + _ = used s + _ := hchange Client.used hi hclient hclients
    have hlost : lost s' + _ = lost s + _ := hchange Client.lost hi hclient hclients
    refine ⟨hset hclients (by simp [hused]), ?_, by simp [hrunning], ?_⟩
    · simpa [hidle, hused] using hcount
    · simpa [Client.lost, hidle, hused, hpfd_r, hnone] using hlost
  | forked i client client' hi hclient hidle hused hpfd_r hclients hrunning =>
    have hcount : used s' + _ = used s + _ := hchange Client.used hi hclient hclients
    have hlost : lost s' + _ = lost s + _ := hchange Client.lost hi hclient hclients
    refine ⟨hset hclients (by simp [hused]), ?_, by simp [hrunning], ?_⟩
    · simpa [hidle, hused] using hcount
    · have hpipe : client'.pfd_r ≠ -1 := by omega
      simpa [Client.lost, hidle, hused, hpipe] using hlost
  | released i client hi hclient hused hpfd_r hclients hrunning hcreated =>
    have hcount : used s' + _ = used s + _ := hchange Client.used hi hclient hclients
    have hlost : lost s' + _ = lost s + _ := hchange Client.lost hi hclient hclients
    refine ⟨hset hclients fun _ => rfl, ?_, by simp [hrunning], ?_⟩
    · simpa [idle_client, hused] using hcount
    · have hpipe : client.pfd_r ≠ -1 := by omega
      simpa [Client.lost, idle_client, hused, hpipe] using hlost
  | stray hclients hrunning hcreated =>
    refine ⟨⟨by rw [hclients, hfit.length, hmax], hclients ▸ hfit.idle⟩, hsame _ hclients, ?_, hsame _ hclients⟩
    simp [hrunning]

/-! ## Runs -/

/-- The turns of a run. -/
def turns (s : Ctserver) (commands : List Command) : List Turn := labels step turn s commands

theorem run_counts {commands : List Command} {outputs : List Unit} (hfit : Fit s)
    (hrun : run step s commands = .ok (s', outputs)) :
    Fit s' ∧ s'.max_connect = s.max_connect ∧
      used s' + (turns s commands).count .released =
        used s + ((turns s commands).count .forked + (turns s commands).count .failed) ∧
      s'.epoll_num_running + (turns s commands).count .released + (turns s commands).count .stray =
        s.epoll_num_running + (turns s commands).count .forked ∧
      lost s' = lost s + (turns s commands).count .failed := by
  induction commands generalizing s outputs with
  | nil =>
    obtain ⟨rfl, _⟩ := by simpa using hrun
    exact ⟨hfit, rfl, rfl, by simp [turns, labels], rfl⟩
  | cons command commands ih =>
    obtain ⟨t, u, outputs', hstep, hrest, _⟩ := run_cons_eq_ok_iff.mp hrun
    obtain ⟨hmax, hmoved⟩ := step_moved hstep
    obtain ⟨hfit', hused, hrunning, hlost⟩ := hmoved.counts hfit hmax
    obtain ⟨hfit'', hmax', hused', hrunning', hlost'⟩ := ih hfit' hrest
    have hturns : turns s (command :: commands) = [turn s command] ++ turns t commands :=
      labels_cons turn hstep commands
    rw [hturns]
    simp only [List.count_append, Int.natCast_add]
    exact ⟨hfit'', hmax'.trans hmax, by omega, by omega, by omega⟩

/-- Without an idle slot nothing is taken. -/
theorem turn_of_full (hfull : get_idle_idx_from_clients s = none) (command : Command) :
    turn s command ≠ .failed ∧ turn s command ≠ .forked := by
  cases command with
  | epoll_wait events => exact ⟨nofun, nofun⟩
  | event answers =>
    unfold turn
    rw [hfull]
    cases s.epoll_evts with
    | nil => exact ⟨nofun, nofun⟩
    | cons evt evts =>
      dsimp only
      simp only [Option.isSome_none, Bool.and_false, Bool.false_eq_true, if_false]
      constructor <;> (split_ifs <;> nofun)

theorem Moved.created_eq {k : Turn} (hmoved : Moved s s' k) (hk : k ≠ .failed ∧ k ≠ .forked) :
    s'.created = s.created := by
  cases hmoved with
  | nothing hclients hrunning hcreated => exact hcreated
  | failed => exact absurd rfl hk.1
  | forked => exact absurd rfl hk.2
  | released i client hi hclient hused hpfd_r hclients hrunning hcreated => exact hcreated
  | stray hclients hrunning hcreated => exact hcreated

/-- Where every slot is lost no child is created any more. -/
theorem run_of_lost {commands : List Command} {outputs : List Unit} (hfit : Fit s) (hlost : lost s = s.max_connect)
    (hrun : run step s commands = .ok (s', outputs)) : s'.created = s.created := by
  have hkept : Fit s' ∧ lost s' = s'.max_connect ∧ s'.created = s.created := by
    refine run_invariant (fun t => Fit t ∧ lost t = t.max_connect ∧ t.created = s.created) ?_ ⟨hfit, hlost, rfl⟩ hrun
    rintro t command t' u ⟨hfit, hlost, hcreated⟩ hstep
    obtain ⟨hmax, hmoved⟩ := step_moved hstep
    have hle : lost t ≤ used t := passing_mono (fun client h => (Bool.and_eq_true _ _ ▸ h).1) _ _
    have hfull : used t = t.max_connect := Nat.le_antisymm (passing_le _ _ _) (hlost ▸ hle)
    have hturn := turn_of_full (hfit.get_idle_idx_eq_none_iff.mpr hfull) command
    obtain ⟨hfit', _, _, hlost'⟩ := hmoved.counts hfit hmax
    have hcount : [turn t command].count .failed = 0 := List.count_eq_zero.mpr (by simpa using hturn.1.symm)
    rw [hcount, Nat.add_zero] at hlost'
    exact ⟨hfit', by rw [hlost', hlost, hmax], (hmoved.created_eq hturn).trans hcreated⟩
  exact hkept.2.2

/-- In every run, whatever the kernel answers and reports, the slots that are used are
    those that were taken less those that hang-ups gave back. The counter is the number
    of used slots exactly if every slot that was taken got its child and every hang-up
    was about a slot. Each slot that got none is used for good: when there are as many
    of them as slots, no child is created any more. -/
theorem slots_along_run {max_connect : Nat} {listen_socks : List Nat} {client_addr : ClientAddr}
    {commands : List Command} {outputs : List Unit}
    (hrun : run step (start max_connect listen_socks client_addr) commands = .ok (s, outputs)) :
    let ts := turns (start max_connect listen_socks client_addr) commands
    used s + ts.count .released = ts.count .forked + ts.count .failed ∧ used s ≤ max_connect ∧
      (s.epoll_num_running = used s ↔ ts.count .failed = 0 ∧ ts.count .stray = 0) ∧
      lost s = ts.count .failed ∧
      (ts.count .failed = max_connect →
        ∀ commands' s' outputs', run step s commands' = .ok (s', outputs') → s'.created = s.created) := by
  intro ts
  obtain ⟨hfit, hmax, hused, hrunning, hlost⟩ := run_counts (fit_start max_connect listen_socks client_addr) hrun
  rw [show turns (start max_connect listen_socks client_addr) commands = ts from rfl] at hused hrunning hlost
  have hmax : s.max_connect = max_connect := hmax
  have hnone : ∀ test : Client → Bool, test idle_client = false →
      passing test max_connect (List.replicate (max_connect + 1) idle_client) = 0 := by
    intro test htest
    refine List.countP_eq_zero.mpr fun client hclient => ?_
    rw [List.eq_of_mem_replicate (List.mem_of_mem_take hclient), htest]
    nofun
  have hused₀ : used (start max_connect listen_socks client_addr) = 0 := hnone _ rfl
  have hlost₀ : lost (start max_connect listen_socks client_addr) = 0 := hnone _ rfl
  have hrunning₀ : (start max_connect listen_socks client_addr).epoll_num_running = 0 := rfl
  rw [hused₀, Nat.zero_add] at hused
  rw [hlost₀, Nat.zero_add] at hlost
  rw [hrunning₀, Int.zero_add] at hrunning
  refine ⟨hused, hmax ▸ passing_le _ _ _, by omega, hlost, fun hfailed commands' s' outputs' hrest => ?_⟩
  exact run_of_lost hfit (by rw [hlost, hmax, ← hfailed]) hrest

/-- Three reports: a connection whose child cannot be created, one with a child, and
    the hang-up of this one. -/
def lossy_run : List Command :=
  [.epoll_wait [{ fd := 3, epollerr := false, epollin := true, epollhup := false }],
    .event { scid := [65], accepts := [.connection 5 some_addr], creation := .pipe1_failed },
    .epoll_wait [{ fd := 3, epollerr := false, epollin := true, epollhup := false }],
    .event { scid := [66], accepts := [.connection 5 some_addr], creation := .forked (6, 7) (8, 9) 100 },
    .epoll_wait [{ fd := 8, epollerr := false, epollin := false, epollhup := true }],
    .event { scid := [67], accepts := [], creation := .pipe1_failed }]

theorem slots_along_run_lossy :
    ∃ s outputs, run step (start 2 [3, 4] some_addr) lossy_run = .ok (s, outputs) ∧
      turns (start 2 [3, 4] some_addr) lossy_run = [.nothing, .failed, .nothing, .forked, .nothing, .released] ∧
      used s = 1 ∧ lost s = 1 ∧ s.epoll_num_running ≠ used s := by
  obtain ⟨s, outputs, hrun, _⟩ := run_of_view (fun s : Ctserver => s.epoll_num_running)
    (by decide +kernel : (run step (start 2 [3, 4] some_addr) lossy_run).toOption.map
      (fun r => r.1.epoll_num_running) = some 0)
  have hturns : turns (start 2 [3, 4] some_addr) lossy_run =
      [.nothing, .failed, .nothing, .forked, .nothing, .released] := by decide +kernel
  obtain ⟨hused, _, hrunning, hlost, _⟩ := slots_along_run hrun
  rw [hturns] at hused hrunning hlost
  refine ⟨s, outputs, hrun, hturns, ?_, hlost, fun heq => ?_⟩
  · simpa using hused
  · exact absurd (hrunning.mp heq).1 (by decide)

end code_tools.ctproxy.ctserver
