import CodeTools.ServerEpoll.Transfer

/-!
# What the back server gets of a client's stream

The child takes the first chunk that it reads for a command, whatever bytes it
has: it connects and drops the chunk. Where that chunk ends is up to the network.
-/

namespace code_tools.server_epoll.child

open cmem machine relay syscall

/-- The chunk that an answer delivers from the client. -/
def client_chunk (s : Child) (answer : Answer) : List (List UInt8) :=
  match s.control, answer with
  | .read_client _, .read (.data buf) => if buf = [] then [] else [buf]
  | _, _ => []

/-- The chunks that a run reads from the client. -/
def client_chunks (cfg : Config) : Child → List Answer → List (List UInt8)
  | _, [] => []
  | s, answer :: answers =>
    client_chunk s answer ++
      match step cfg s answer with
      | .ok (s', _) => client_chunks cfg s' answers
      | .error _ => []

/-- A connection to the back server, where one is looked for, can be had. -/
def Connects (_ : Child) (answer : Answer) : Prop :=
  match answer with
  | .connected fd ndelay_on epoll_ctl => 0 ≤ fd ∧ ndelay_on = true ∧ epoll_ctl = true
  | _ => True

/-- Bytes that were read may be left unwritten: the write loop is not over, or it
    failed. -/
def Control.unwritten : Control → Bool
  | .write_back _ _ => true
  | .exited errnum => errnum = 21
  | _ => false

def Control.connecting : Control → Bool
  | .connect_to_back_server _ => true
  | _ => false

/-- What the child has done with the client's chunks: the first made it connect,
    the others were taken for the back server. -/
structure Served (s : Child) (chunks : List (List UInt8)) : Prop where
  idle : s.client_state = .CONNECT → s.control.connecting = false → chunks = []
  connecting : s.control.connecting = true → s.client_state = .CONNECT ∧ chunks.length = 1
  started : s.client_state = .TRANS → chunks ≠ [] ∧ s.back_fd ≠ -1
  taken : s.client_link.taken = chunks.tail.flatten
  pending : ∀ events chunk, s.control = .write_back events chunk →
    s.client_state = .TRANS ∧ chunk.Pending s.client_link
  settled : s.control.unwritten = false → s.client_link.Settled

theorem served_start : Served start [] :=
  ⟨fun _ _ => rfl, nofun, nofun, rfl, nofun, fun _ => rfl⟩

variable {cfg : Config} {s s' : Child} {chunks : List (List UInt8)}

/-- A step that has to do with the back server's stream or with nothing. -/
theorem Served.keep (hserved : Served s chunks) (hbefore : s.control.connecting = false)
    (hsettled : s.control.unwritten = false) (hlink : s'.client_link = s.client_link)
    (hstate : s'.client_state = s.client_state) (hfd : s'.back_fd = s.back_fd)
    (hafter : s'.control.connecting = false) (hwriting : ∀ events chunk, s'.control ≠ .write_back events chunk) :
    Served s' chunks where
  idle hconnect _ := hserved.idle (hstate ▸ hconnect) hbefore
  connecting hconnecting := by
    rw [hafter] at hconnecting
    cases hconnecting
  started htrans := by
    rw [hfd]
    exact hserved.started (hstate ▸ htrans)
  taken := hlink ▸ hserved.taken
  pending events chunk hcontrol := absurd hcontrol (hwriting events chunk)
  settled _ := hlink ▸ hserved.settled hsettled

theorem Served.next_event (hserved : Served s chunks) (hbefore : s.control.connecting = false)
    (hsettled : s.control.unwritten = false) (events : List Event) : Served (next_event s events) chunks := by
  obtain ⟨hlink, _, hwriting, hstate, hfd, hconnect⟩ := next_event_same s events
  refine hserved.keep hbefore hsettled hlink hstate hfd ?_ ?_
  · cases hcontrol : (child.next_event s events).control with
    | connect_to_back_server rest => exact absurd hcontrol (hconnect rest)
    | _ => rfl
  · intro events' chunk hcontrol
    rw [hcontrol] at hwriting
    cases hwriting

theorem Served.exit (hserved : Served s chunks) (hbefore : s.control.connecting = false)
    (hsettled : s.control.unwritten = false) (errnum : Int) : Served (exit_cleanup s errnum) chunks :=
  hserved.keep hbefore hsettled rfl rfl rfl rfl nofun

/-- A chunk from the client starts the connection, or is taken for the back
    server. -/
theorem Served.read_data (hserved : Served s chunks) (hip : cfg.cback_ip ≠ []) (hport : cfg.cback_port ≠ [])
    {events : List Event} (hcontrol : s.control = .read_client events) {buf : List UInt8} (hbuf : buf ≠ [])
    (hread : read_client cfg s events (.data buf) = .ok s') : Served s' (chunks ++ [buf]) := by
  have hbefore : s.control.connecting = false := by rw [hcontrol]; rfl
  have hlink : s.client_link.Settled := hserved.settled (by rw [hcontrol]; rfl)
  obtain ⟨b, bs, rfl⟩ := List.exists_cons_of_ne_nil hbuf
  unfold read_client at hread
  dsimp only at hread
  split at hread
  · cases hread
  split at hread
  · rename_i htrans
    obtain ⟨hchunks, hfd⟩ := hserved.started htrans
    rw [if_pos hfd] at hread
    cases hread
    have hpending := pending_of_take hlink hbuf
    have hmore : (0 : Int) < (b :: bs).length := hpending.pos
    unfold write_back_loop
    rw [if_pos hmore]
    refine ⟨fun hconnect => ?_, nofun, fun _ => ⟨by simp, hfd⟩, ?_, ?_, nofun⟩
    · have hstate : s.client_state = .CONNECT := hconnect
      rw [htrans] at hstate
      cases hstate
    · show s.client_link.taken ++ (b :: bs) = (chunks ++ [b :: bs]).tail.flatten
      rw [hserved.taken, List.tail_append_of_ne_nil hchunks]
      simp
    · intro events' chunk hwriting
      cases hwriting
      exact ⟨htrans, hpending⟩
  · rename_i hnot
    have hconnect : s.client_state = .CONNECT := by
      cases hstate : s.client_state with
      | CONNECT => rfl
      | TRANS => exact absurd hstate hnot
    obtain rfl := hserved.idle hconnect hbefore
    cases hread
    unfold process_client_cmd
    rw [if_pos ⟨hconnect, hip, hport⟩]
    refine ⟨fun _ hnone => ?_, fun _ => ⟨hconnect, rfl⟩, fun htrans => absurd htrans hnot, hserved.taken, nofun,
      fun _ => hlink⟩
    cases hnone

theorem Served.connected (hserved : Served s chunks) {events : List Event}
    (hcontrol : s.control = .connect_to_back_server events) {fd : Int} (hfd : 0 ≤ fd) :
    Served (connected s events fd true true) chunks := by
  obtain ⟨hstate, hlen⟩ := hserved.connecting (by rw [hcontrol]; rfl)
  have hne : chunks ≠ [] := by
    rintro rfl
    cases hlen
  unfold child.connected
  rw [if_neg (by omega), if_neg (by simp), if_neg (by simp)]
  exact ⟨nofun, nofun, fun _ => ⟨hne, by dsimp only; omega⟩, hserved.taken, nofun,
    fun _ => hserved.settled (by rw [hcontrol]; rfl)⟩

theorem Served.write_back (hserved : Served s chunks) {events : List Event} {chunk : Chunk}
    (hcontrol : s.control = .write_back events chunk) {result : WriteResult}
    (hwrite : write_back s events chunk result = .ok s') : Served s' chunks := by
  obtain ⟨htrans, hpending⟩ := hserved.pending events chunk hcontrol
  have hstarted := hserved.started htrans
  have hidle : s.client_state ≠ .CONNECT := by rw [htrans]; nofun
  obtain rfl | rfl | ⟨nw, hnw, rfl⟩ := write_back_inv hwrite
  · exact hserved
  · exact ⟨fun hconnect => absurd hconnect hidle, nofun, fun _ => hstarted, hserved.taken, nofun, nofun⟩
  · obtain ⟨hmore, hdone⟩ := hpending.accepted hnw
    unfold write_back_loop
    by_cases hleft : 0 < chunk.nw_tmp - nw
    · rw [if_pos hleft]
      refine ⟨fun hconnect => absurd hconnect hidle, nofun, fun _ => hstarted, hserved.taken, ?_, nofun⟩
      intro events' chunk' hwriting
      cases hwriting
      exact ⟨htrans, hmore hleft⟩
    · rw [if_neg hleft]
      exact ⟨fun hconnect => absurd hconnect hidle, nofun, fun _ => hstarted, hserved.taken, nofun,
        fun _ => hdone (by omega)⟩

/-- Only a read from the client brings a chunk. -/
theorem Served.no_chunk {s₁ : Child} {answer : Answer} (hserved : Served s' chunks)
    (hcontrol : ∀ events, s₁.control ≠ .read_client events) : Served s' (chunks ++ client_chunk s₁ answer) := by
  have hnone : client_chunk s₁ answer = [] := by
    unfold client_chunk
    split
    · rename_i events _ hread
      exact absurd hread (hcontrol events)
    · rfl
  rwa [hnone, List.append_nil]

theorem Served.read_client (hserved : Served s chunks) (hip : cfg.cback_ip ≠ []) (hport : cfg.cback_port ≠ [])
    {events : List Event} (hcontrol : s.control = .read_client events) {result : ReadResult}
    (hread : read_client cfg s events result = .ok s') :
    Served s' (chunks ++ client_chunk s (.read result)) := by
  have hbefore : s.control.connecting = false := by rw [hcontrol]; rfl
  have hsettled : s.control.unwritten = false := by rw [hcontrol]; rfl
  unfold client_chunk
  rw [hcontrol]
  cases result with
  | failed errno =>
    dsimp only
    rw [List.append_nil]
    unfold child.read_client at hread
    split at hread
    · cases hread
      exact hserved.next_event hbefore hsettled events
    · cases hread
      exact hserved
    · cases hread
      exact hserved.exit hbefore hsettled 51
    · cases hread
      exact hserved.exit hbefore hsettled 10
    · rename_i heq
      cases heq
  | data buf =>
    dsimp only
    by_cases hbuf : buf = []
    · subst hbuf
      rw [if_pos rfl, List.append_nil]
      cases hread
      exact hserved.exit hbefore hsettled 10
    · rw [if_neg hbuf]
      exact hserved.read_data hip hport hcontrol hbuf hread

theorem Served.read_back (hserved : Served s chunks) {events : List Event}
    (hcontrol : s.control = .read_back events) {result : ReadResult}
    (hread : read_back s events result = .ok s') : Served s' chunks := by
  have hbefore : s.control.connecting = false := by rw [hcontrol]; rfl
  have hsettled : s.control.unwritten = false := by rw [hcontrol]; rfl
  obtain rfl | rfl | ⟨errnum, rfl⟩ | ⟨buf, _, ⟨_, rfl⟩ | ⟨_, rfl⟩⟩ := read_back_inv hread
  · exact hserved.next_event hbefore hsettled events
  · exact hserved
  · exact hserved.exit hbefore hsettled errnum
  · unfold write_client_loop
    split
    · exact hserved.keep hbefore hsettled rfl rfl rfl rfl nofun
    · exact hserved.keep hbefore hsettled rfl rfl rfl rfl nofun
  · exact hserved.keep hbefore hsettled rfl rfl rfl rfl nofun

theorem Served.write_client (hserved : Served s chunks) {events : List Event} {chunk : Chunk}
    (hcontrol : s.control = .write_client events chunk) {result : WriteResult}
    (hwrite : write_client s events chunk result = .ok s') : Served s' chunks := by
  have hbefore : s.control.connecting = false := by rw [hcontrol]; rfl
  have hsettled : s.control.unwritten = false := by rw [hcontrol]; rfl
  obtain ⟨_, rfl⟩ | rfl | ⟨nw, _, rfl⟩ := write_client_inv hwrite
  · unfold write_client_loop
    split
    · exact hserved.keep hbefore hsettled rfl rfl rfl rfl nofun
    · exact hserved.keep hbefore hsettled rfl rfl rfl rfl nofun
  · exact hserved.exit hbefore hsettled 21
  · unfold write_client_loop
    split
    · exact hserved.keep hbefore hsettled rfl rfl rfl rfl nofun
    · exact hserved.keep hbefore hsettled rfl rfl rfl rfl nofun

/-- One step serves what it reads from the client. -/
theorem Served.answered (hserved : Served s chunks) (hip : cfg.cback_ip ≠ []) (hport : cfg.cback_port ≠ [])
    {answer : Answer} (hconnects : Connects s answer) (hanswered : answered cfg s answer = .ok s') :
    Served s' (chunks ++ client_chunk s answer) := by
  unfold child.answered at hanswered
  split at hanswered
  · rename_i events hcontrol
    cases hanswered
    refine Served.no_chunk ?_ (by rw [hcontrol]; nofun)
    exact hserved.next_event (by rw [hcontrol]; rfl) (by rw [hcontrol]; rfl) events
  · rename_i events result hcontrol
    exact hserved.read_client hip hport hcontrol hanswered
  · rename_i events fd ndelay_on epoll_ctl hcontrol
    cases hanswered
    obtain ⟨hfd, rfl, rfl⟩ := hconnects
    exact (hserved.connected hcontrol hfd).no_chunk (by rw [hcontrol]; nofun)
  · rename_i wbuf errnum result hcontrol
    cases hanswered
    refine Served.no_chunk ?_ (by rw [hcontrol]; nofun)
    exact hserved.exit (by rw [hcontrol]; rfl) (by rw [hcontrol]; rfl) errnum
  · rename_i events chunk result hcontrol
    exact (hserved.write_back hcontrol hanswered).no_chunk (by rw [hcontrol]; nofun)
  · rename_i events result hcontrol
    exact (hserved.read_back hcontrol hanswered).no_chunk (by rw [hcontrol]; nofun)
  · rename_i events chunk result hcontrol
    exact (hserved.write_client hcontrol hanswered).no_chunk (by rw [hcontrol]; nofun)
  · cases hanswered

/-- A whole run serves all that it reads from the client. -/
theorem Served.run (hserved : Served s chunks) (hip : cfg.cback_ip ≠ []) (hport : cfg.cback_port ≠ [])
    {answers : List Answer} {outs : List Unit} (hconnects : Guarded (step cfg) Connects s answers)
    (hrun : run (step cfg) s answers = .ok (s', outs)) : Served s' (chunks ++ client_chunks cfg s answers) := by
  induction answers generalizing s chunks outs with
  | nil =>
    obtain ⟨rfl, _⟩ := Prod.mk.inj (Except.ok.inj hrun)
    simpa [client_chunks] using hserved
  | cons answer answers ih =>
    obtain ⟨t, u, outs', hstep, hrest, _⟩ := run_cons_eq_ok_iff.mp hrun
    obtain ⟨t', hanswered, heq⟩ := bind_eq_ok_iff.mp hstep
    obtain ⟨rfl, _⟩ := Prod.mk.inj (Except.ok.inj heq)
    have hnext := hserved.answered hip hport hconnects.1 hanswered
    unfold client_chunks
    rw [hstep, ← List.append_assoc]
    exact ih hnext (hconnects.2 _ _ hstep) hrest

/-! ## Two runs -/

theorem flatten_tail (chunks : List (List UInt8)) :
    chunks.tail.flatten = chunks.flatten.drop (chunks.headD []).length := by
  cases chunks with
  | nil => rfl
  | cons c chunks => simp

/-- What is written to the back server is the client's stream without its first
    chunk. -/
theorem given_eq_drop (hip : cfg.cback_ip ≠ []) (hport : cfg.cback_port ≠ []) {answers : List Answer}
    {outs : List Unit} (hconnects : Guarded (step cfg) Connects start answers)
    (hrun : run (step cfg) start answers = .ok (s, outs)) (hdone : s.control.unwritten = false) :
    s.client_link.given = (client_chunks cfg start answers).flatten.drop
      ((client_chunks cfg start answers).headD []).length := by
  have hserved := served_start.run hip hport hconnects hrun
  rw [List.nil_append] at hserved
  rw [hserved.settled hdone, hserved.taken, flatten_tail]

theorem head_length_le (chunks : List (List UInt8)) : (chunks.headD []).length ≤ chunks.flatten.length := by
  cases chunks with
  | nil => exact Nat.le_refl _
  | cons c chunks => simp

/-- For every client stream and every two runs that read all of it, in chunks of
    any lengths and with any other answers in any order, the back server gets the
    same bytes if and only if the first chunks have the same length. -/
theorem same_for_back_iff (hip : cfg.cback_ip ≠ []) (hport : cfg.cback_port ≠ [])
    {answers₁ answers₂ : List Answer} {s₁ s₂ : Child} {outs₁ outs₂ : List Unit}
    (hconnects₁ : Guarded (step cfg) Connects start answers₁)
    (hconnects₂ : Guarded (step cfg) Connects start answers₂)
    (hrun₁ : run (step cfg) start answers₁ = .ok (s₁, outs₁))
    (hrun₂ : run (step cfg) start answers₂ = .ok (s₂, outs₂))
    (hdone₁ : s₁.control.unwritten = false) (hdone₂ : s₂.control.unwritten = false)
    (hstream : (client_chunks cfg start answers₁).flatten = (client_chunks cfg start answers₂).flatten) :
    s₁.client_link.given = s₂.client_link.given ↔
      ((client_chunks cfg start answers₁).headD []).length =
        ((client_chunks cfg start answers₂).headD []).length := by
  have hle₁ := head_length_le (client_chunks cfg start answers₁)
  have hle₂ := head_length_le (client_chunks cfg start answers₂)
  rw [given_eq_drop hip hport hconnects₁ hrun₁ hdone₁, given_eq_drop hip hport hconnects₂ hrun₂ hdone₂, hstream]
  rw [hstream] at hle₁
  constructor
  · intro heq
    have hlen := congrArg List.length heq
    rw [List.length_drop, List.length_drop] at hlen
    omega
  · intro heq
    rw [heq]

instance (s : Child) : (answer : Answer) → Decidable (Connects s answer)
  | .connected _ _ _ => inferInstanceAs (Decidable (_ ∧ _))
  | .events _ | .read _ | .wrote _ => isTrue trivial

/-- The stream `abc` as `a` and `bc`, and as `a`, `b` and `c`. -/
def one_and_two : List Answer :=
  [.events [{ fd := 2, epollin := true, epollhup := false }], .read (.data [97]), .connected 7 true true,
    .read (.data [98, 99]), .wrote (.accepted 2), .read (.failed .EAGAIN)]

def one_by_one : List Answer :=
  [.events [{ fd := 2, epollin := true, epollhup := false }], .read (.data [97]), .connected 7 true true,
    .read (.data [98]), .wrote (.accepted 1), .read (.failed .EINTR), .read (.data [99]),
    .wrote (.failed .EAGAIN), .wrote (.accepted 1), .read (.failed .EAGAIN)]

/-- The stream `abc` at once. -/
def all_at_once : List Answer :=
  [.events [{ fd := 2, epollin := true, epollhup := false }], .read (.data [97, 98, 99]),
    .connected 7 true true, .read (.failed .EAGAIN)]

theorem same_for_back_iff_same_head :
    ∃ s₁ s₂ outs₁ outs₂, run (step local_back) start one_and_two = .ok (s₁, outs₁) ∧
      run (step local_back) start one_by_one = .ok (s₂, outs₂) ∧
      s₁.client_link.given = s₂.client_link.given := by
  obtain ⟨s₁, outs₁, hrun₁, hdone₁⟩ := run_of_view (fun s : Child => s.control.unwritten)
    (by decide +kernel : (run (step local_back) start one_and_two).toOption.map
      (fun r => r.1.control.unwritten) = some false)
  obtain ⟨s₂, outs₂, hrun₂, hdone₂⟩ := run_of_view (fun s : Child => s.control.unwritten)
    (by decide +kernel : (run (step local_back) start one_by_one).toOption.map
      (fun r => r.1.control.unwritten) = some false)
  refine ⟨s₁, s₂, outs₁, outs₂, hrun₁, hrun₂, ?_⟩
  exact (same_for_back_iff (by decide) (by decide) (by decide +kernel) (by decide +kernel) hrun₁ hrun₂ hdone₁
    hdone₂ (by decide +kernel)).mpr (by decide +kernel)

/-- The same stream read in one piece and in two leaves the back server with
    nothing and with two bytes. -/
theorem cut_changes_stream :
    ∃ s₁ s₂ outs₁ outs₂, run (step local_back) start all_at_once = .ok (s₁, outs₁) ∧
      run (step local_back) start one_and_two = .ok (s₂, outs₂) ∧
      s₁.control.unwritten = false ∧ s₂.control.unwritten = false ∧
      (client_chunks local_back start all_at_once).flatten =
        (client_chunks local_back start one_and_two).flatten ∧
      s₁.client_link.given = [] ∧ s₂.client_link.given = [98, 99] := by
  obtain ⟨s₁, outs₁, hrun₁, hview₁⟩ := run_of_view (fun s : Child => (s.control.unwritten, s.client_link.given))
    (by decide +kernel : (run (step local_back) start all_at_once).toOption.map
      (fun r => (r.1.control.unwritten, r.1.client_link.given)) = some (false, []))
  obtain ⟨s₂, outs₂, hrun₂, hview₂⟩ := run_of_view (fun s : Child => (s.control.unwritten, s.client_link.given))
    (by decide +kernel : (run (step local_back) start one_and_two).toOption.map
      (fun r => (r.1.control.unwritten, r.1.client_link.given)) = some (false, [98, 99]))
  obtain ⟨hdone₁, hgiven₁⟩ := Prod.mk.inj hview₁
  obtain ⟨hdone₂, hgiven₂⟩ := Prod.mk.inj hview₂
  exact ⟨s₁, s₂, outs₁, outs₂, hrun₁, hrun₂, hdone₁, hdone₂, by decide +kernel, hgiven₁, hgiven₂⟩

end code_tools.server_epoll.child
