import CodeTools.ServerEpoll.Ownership

/-!
# Children that ended

Any number of children that end while `SIGCHLD` is not delivered make it pending
once. The handler reaps with `waitpid` and returns early after a child that
crashed; `SIGCHLD` stays blocked after an event with `EPOLLERR`.
-/

namespace code_tools.server_epoll.reaping

open cmem descriptor machine syscall
open server (Server Event Answers)

/-- A child that ended and was not reaped. -/
structure Zombie where
  pid : Int
  wstat : Nat
deriving DecidableEq, Repr

/-- The parent, and what the kernel keeps of its children. -/
structure Parent where
  server : Server
  zombies : List Zombie
  /-- The children that ended so far. -/
  ended : List Int
  sigchld_pending : Bool
  /-- `sigchld_exit` is running; the kernel blocks `SIGCHLD` meanwhile. -/
  in_handler : Bool
deriving DecidableEq, Repr

def wait_crashed (wstat : Nat) : Bool := wstat &&& 127 ≠ 0

inductive Command where
  | child_ends (zombie : Zombie)
  | sigchld
  /-- The next call of the handler, with the child that it is given. -/
  | waitpid (i : Nat)
  | server (command : server.Command)
deriving DecidableEq, Repr

/-- One round of `sigchld_exit`. Without a child the loop ends. -/
def sigchld_exit (p : Parent) (i : Nat) : Except Stuck Parent :=
  match p.zombies[i]? with
  | some zombie =>
    let p := { p with zombies := p.zombies.eraseIdx i }
    if wait_crashed zombie.wstat then .ok { p with in_handler := false } else .ok p
  | none => if p.zombies = [] then .ok { p with in_handler := false } else .error .answer

/-- Each child that was created ends at most once, at any time. -/
def step (p : Parent) : Command → Except Stuck (Parent × Unit)
  | .child_ends zombie =>
    if p.ended.count zombie.pid < (p.server.children.map Prod.fst).count zombie.pid then
      .ok ({ p with
        zombies := p.zombies ++ [zombie], ended := zombie.pid :: p.ended, sigchld_pending := true }, ())
    else .error .answer
  | .sigchld =>
    if p.sigchld_pending = true ∧ p.server.sigchld_blocked = false ∧ p.in_handler = false then
      .ok ({ p with sigchld_pending := false, in_handler := true }, ())
    else .error .answer
  | .waitpid i =>
    if p.in_handler then do
      let p ← sigchld_exit p i
      .ok (p, ())
    else .error .answer
  | .server command =>
    if p.in_handler then .error .answer
    else do
      let (s, _) ← server.step p.server command
      .ok ({ p with server := s }, ())

def start (max_connect : Nat) (files : Table server.File) (listen_fd : Nat) : Parent :=
  { server := server.start max_connect files listen_fd, zombies := [], ended := [], sigchld_pending := false,
    in_handler := false }

/-- The parent is in `epoll_wait`. -/
def Waits (p : Parent) : Prop := p.server.epoll_evts = [] ∧ p.in_handler = false

/-- `SIGCHLD` can come, and has nothing left when none is pending. -/
def Reaped (p : Parent) : Prop :=
  p.server.sigchld_blocked = false ∧ (p.sigchld_pending = false → p.zombies = [])

instance (p : Parent) : Decidable (Waits p) :=
  inferInstanceAs (Decidable (p.server.epoll_evts = [] ∧ p.in_handler = false))

instance (p : Parent) : Decidable (Reaped p) :=
  inferInstanceAs (Decidable (p.server.sigchld_blocked = false ∧ (p.sigchld_pending = false → p.zombies = [])))

/-- The condition on a step: a child that crashed is reaped last, or `SIGCHLD` is
    pending again by then; and `EPOLLERR` does not come last in its batch. -/
def Prompt (p : Parent) : Command → Prop
  | .waitpid i => ∀ zombie ∈ p.zombies[i]?, wait_crashed zombie.wstat = true →
    p.zombies.length = 1 ∨ p.sigchld_pending = true
  | .server (.event _) => p.server.epoll_evts.length = 1 → ∀ evt ∈ p.server.epoll_evts, evt.epollerr = false
  | _ => True

instance (p : Parent) : ∀ command, Decidable (Prompt p command)
  | .waitpid i => inferInstanceAs (Decidable (∀ zombie ∈ p.zombies[i]?, wait_crashed zombie.wstat = true →
    p.zombies.length = 1 ∨ p.sigchld_pending = true))
  | .server (.event _) => inferInstanceAs (Decidable (p.server.epoll_evts.length = 1 →
    ∀ evt ∈ p.server.epoll_evts, evt.epollerr = false))
  | .server (.epoll_wait _) => inferInstanceAs (Decidable True)
  | .child_ends _ => inferInstanceAs (Decidable True)
  | .sigchld => inferInstanceAs (Decidable True)

/-! ## The signal mask -/

/-- `EPOLLERR` leaves `SIGCHLD` blocked, every other event unblocks it. -/
theorem handle_event_mask {s s' : Server} {evt : Event} {answers : Answers}
    (hhandle : server.handle_event s evt answers = .ok s') : s'.sigchld_blocked = evt.epollerr := by
  unfold server.handle_event at hhandle
  by_cases herr : evt.epollerr = true
  · rw [if_pos herr] at hhandle
    cases hhandle
    rw [herr]
    unfold server.close_fd
    split <;> rfl
  · rw [if_neg herr] at hhandle
    rw [Bool.not_eq_true] at herr
    rw [herr]
    dsimp only at hhandle
    split at hhandle
    · split at hhandle
      · obtain ⟨t, _, hdone⟩ := bind_eq_ok_iff.mp hhandle
        cases hdone
        rfl
      · obtain ⟨t, _, hdone⟩ := bind_eq_ok_iff.mp hhandle
        cases hdone
        rfl
    · split at hhandle
      · cases hhandle
        rfl
      · cases hhandle
        rfl

theorem event_mask {s s' : Server} {answers : Answers} {u : Unit}
    (hstep : server.step s (.event answers) = .ok (s', u)) :
    ∃ evt, s.epoll_evts = evt :: s'.epoll_evts ∧ s'.sigchld_blocked = evt.epollerr := by
  obtain ⟨_, hcommand, _⟩ | ⟨evt, evts, _, hcommand, hevts, hhandle⟩ := server.step_inv hstep
  · cases hcommand
  · cases hcommand
    have hrest := (server.handle_event_handled hhandle).frame.1
    exact ⟨evt, by rw [hevts, hrest], handle_event_mask hhandle⟩

/-! ## Runs -/

/-- No child is left behind by the handler, and `epoll_wait` is not entered with
    `SIGCHLD` blocked. -/
structure Clean (p : Parent) : Prop where
  unblocked : p.server.epoll_evts = [] → p.server.sigchld_blocked = false
  reaped : p.in_handler = false → p.sigchld_pending = false → p.zombies = []

variable {p p' : Parent}

theorem Clean.when_waiting (hclean : Clean p) (hwaits : Waits p) : Reaped p :=
  ⟨hclean.unblocked hwaits.1, hclean.reaped hwaits.2⟩

theorem sigchld_exit_clean_iff {i : Nat} (hclean : Clean p) (hin_handler : p.in_handler = true)
    (hexit : sigchld_exit p i = .ok p') : Clean p' ↔ Prompt p (.waitpid i) := by
  unfold sigchld_exit at hexit
  simp only [Prompt]
  cases hzombie : p.zombies[i]? with
  | none =>
    simp only [hzombie] at hexit
    split at hexit
    · next hnone =>
      cases hexit
      exact ⟨fun _ => nofun, fun _ => ⟨hclean.unblocked, fun _ _ => hnone⟩⟩
    · cases hexit
  | some zombie =>
    simp only [hzombie] at hexit
    obtain ⟨hi, _⟩ := List.getElem?_eq_some_iff.mp hzombie
    split at hexit
    · next hcrashed =>
      cases hexit
      have hrest : p.zombies.eraseIdx i = [] ↔ p.zombies.length = 1 := by
        rw [← List.length_eq_zero_iff, List.length_eraseIdx_of_lt hi]
        omega
      constructor
      · rintro hclean' other hother _
        cases hpending : p.sigchld_pending with
        | true => exact Or.inr rfl
        | false => exact Or.inl (hrest.mp (hclean'.reaped rfl hpending))
      · intro hprompt
        refine ⟨hclean.unblocked, fun _ hpending => ?_⟩
        rcases hprompt zombie rfl hcrashed with hlast | hagain
        · exact hrest.mpr hlast
        · exact absurd (hpending.symm.trans hagain) Bool.false_ne_true
    · next hcrashed =>
      cases hexit
      refine ⟨fun _ other hother hcrashed' => ?_, fun _ => ⟨hclean.unblocked, fun hout => ?_⟩⟩
      · rw [Option.mem_some_iff] at hother
        subst hother
        exact absurd hcrashed' hcrashed
      · exact absurd (hin_handler.symm.trans hout) (by decide)

theorem step_clean_iff {command : Command} {u : Unit} (hclean : Clean p) (hstep : step p command = .ok (p', u)) :
    Clean p' ↔ Prompt p command := by
  cases command with
  | child_ends zombie =>
    simp only [step] at hstep
    split at hstep
    · cases hstep
      exact ⟨fun _ => trivial, fun _ => ⟨hclean.unblocked, fun _ => nofun⟩⟩
    · cases hstep
  | sigchld =>
    simp only [step] at hstep
    split at hstep
    · cases hstep
      exact ⟨fun _ => trivial, fun _ => ⟨hclean.unblocked, nofun⟩⟩
    · cases hstep
  | waitpid i =>
    simp only [step] at hstep
    split at hstep
    · next hin_handler =>
      obtain ⟨t, hexit, hdone⟩ := bind_eq_ok_iff.mp hstep
      cases hdone
      exact sigchld_exit_clean_iff hclean hin_handler hexit
    · cases hstep
  | server command =>
    simp only [step] at hstep
    split at hstep
    · cases hstep
    · obtain ⟨⟨s, v⟩, hserver, hdone⟩ := bind_eq_ok_iff.mp hstep
      cases hdone
      cases command with
      | epoll_wait events =>
        obtain ⟨hnone, _, rfl⟩ := server.epoll_wait_frame hserver
        exact ⟨fun _ => trivial, fun _ => ⟨fun _ => hclean.unblocked hnone, hclean.reaped⟩⟩
      | event answers =>
        obtain ⟨evt, hevts, hmask⟩ := event_mask hserver
        simp only [Prompt, hevts, List.length_cons, List.mem_cons]
        constructor
        · intro hclean' hlast other hother
          have hnone : s.epoll_evts = [] := List.length_eq_zero_iff.mp (by omega)
          rw [hnone] at hother
          obtain rfl := hother.resolve_right List.not_mem_nil
          rw [← hmask]
          exact hclean'.unblocked hnone
        · intro hprompt
          refine ⟨fun hnone => ?_, hclean.reaped⟩
          dsimp only at hnone ⊢
          rw [hmask]
          exact hprompt (by rw [hnone]; rfl) evt (Or.inl rfl)

theorem start_clean (max_connect : Nat) (files : Table server.File) (listen_fd : Nat) :
    Clean (start max_connect files listen_fd) := ⟨fun _ => rfl, fun _ _ => rfl⟩

/-- The runs whose steps all meet the condition are those that are clean all along. -/
theorem prompt_iff_clean {max_connect : Nat} {files : Table server.File} {listen_fd : Nat}
    {commands : List Command} {outputs : List Unit}
    (hrun : run step (start max_connect files listen_fd) commands = .ok (p, outputs)) :
    Guarded step Prompt (start max_connect files listen_fd) commands ↔
      ∀ before, before <+: commands → ∀ q outputs, run step (start max_connect files listen_fd) before =
        .ok (q, outputs) → Clean q :=
  run_guarded_iff Clean (fun _ _ _ _ hclean hstep => step_clean_iff hclean hstep)
    (start_clean max_connect files listen_fd) hrun

/-- Whenever the parent waits in `epoll_wait`, in a run whose steps all meet the
    condition, every child that ended is reaped or `SIGCHLD` is about to come. -/
theorem reaped_along_run {max_connect : Nat} {files : Table server.File} {listen_fd : Nat}
    {commands : List Command} {outputs : List Unit}
    (hprompt : Guarded step Prompt (start max_connect files listen_fd) commands)
    (hrun : run step (start max_connect files listen_fd) commands = .ok (p, outputs)) (hwaits : Waits p) :
    Reaped p :=
  ((prompt_iff_clean hrun).mp hprompt commands List.prefix_rfl p outputs hrun).when_waiting hwaits

/-- A connection whose child gets the given pid. -/
def connection (pid : Nat) : List Command :=
  [.server (.epoll_wait [{ fd := 3, epollerr := false, epollin := true, epollhup := false }]),
    .server (.event
      { scid := [65], accepts := [.connection [49] [50]], creation := .forked pid true, reads := [] })]

/-- Two children end before the handler runs: pid 100 with the given status and
    pid 200 by `exit(0)`. -/
def two_children (wstat : Nat) (calls : List Nat) : List Command :=
  connection 100 ++ connection 200 ++
    [.child_ends { pid := 100, wstat := wstat }, .child_ends { pid := 200, wstat := 0 }, .sigchld] ++
    calls.map .waitpid

theorem reaped_along_run_two :
    ∃ p outputs, run step (start 2 server.initial_files 3) (two_children 256 [0, 0, 0]) = .ok (p, outputs) ∧
      Waits p ∧ p.sigchld_pending = false ∧ Reaped p := by
  obtain ⟨p, outputs, hrun, hview⟩ := run_of_view (fun p : Parent => (decide (Waits p), p.sigchld_pending))
    (by decide +kernel : (run step (start 2 server.initial_files 3) (two_children 256 [0, 0, 0])).toOption.map
      (fun r => (decide (Waits r.1), r.1.sigchld_pending)) = some (true, false))
  obtain ⟨hwaits, hpending⟩ := by simpa only [Prod.mk.injEq] using hview
  have hwaits := of_decide_eq_true hwaits
  exact ⟨p, outputs, hrun, hwaits, hpending, reaped_along_run (by decide +kernel) hrun hwaits⟩

/-- The handler reaps the child that was killed by signal 11 and returns; the
    other stays a zombie, with no `SIGCHLD` to come. -/
theorem zombie_after_crash :
    ∃ p outputs, run step (start 2 server.initial_files 3) (two_children 11 [0]) = .ok (p, outputs) ∧
      Waits p ∧ p.sigchld_pending = false ∧ p.zombies = [{ pid := 200, wstat := 0 }] ∧ ¬Reaped p := by
  obtain ⟨p, outputs, hrun, hview⟩ := run_of_view
    (fun p : Parent => (decide (Waits p), p.sigchld_pending, p.zombies, decide (Reaped p)))
    (by decide +kernel : (run step (start 2 server.initial_files 3) (two_children 11 [0])).toOption.map
      (fun r => (decide (Waits r.1), r.1.sigchld_pending, r.1.zombies, decide (Reaped r.1))) =
      some (true, false, [{ pid := 200, wstat := 0 }], false))
  obtain ⟨hwaits, hpending, hzombies, hreaped⟩ := by simpa only [Prod.mk.injEq] using hview
  exact ⟨p, outputs, hrun, of_decide_eq_true hwaits, hpending, hzombies, of_decide_eq_false hreaped⟩

end code_tools.server_epoll.reaping
