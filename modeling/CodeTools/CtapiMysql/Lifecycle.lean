import CodeTools.CtapiMysql.Query
import CodeTools.Lib.Lifetime
import CodeTools.Lib.Machine

/-!
# The life of a MySQL connection

A connection object is got in `_mysql_conn` and closed there, in the loops of the
two calls that reconnect, or by `ct_mysql_disconnect`. Each call on the handle
brings its own answers of the library.
-/

namespace code_tools.ctapi_mysql

open cmem lifetime machine

/-- `mysql_store_result` with a result set, or `NULL` and what `mysql_errno` says. -/
inductive StoreAnswer where
  | stored (res : Nat)
  | null (err : Int)
deriving DecidableEq, Repr

inductive Call where
  | lib (call : LibCall)
  | mysql_store_result (msp : Ptr)
deriving DecidableEq, Repr

def Call.lib? : Call → Option LibCall
  | .lib call => some call
  | .mysql_store_result _ => none

def Call.isStore : Call → Bool
  | .mysql_store_result _ => true
  | .lib _ => false

/-- `_mysql_conn` among the calls made so far. -/
def conn (lib : Library) (handle : MysqlConn) (calls : List Call) : MysqlConn × List Call × Int :=
  let before := calls.filterMap Call.lib?
  let (handle, after, rc) := _mysql_conn lib handle before
  (handle, calls ++ (after.drop before.length).map .lib, rc)

/-- The loop of `_mysql_store_result`; `stores` answers its n-th call. -/
def store_loop (ER_ERROR_LAST : Int) (lib : Library) (stores : Nat → StoreAnswer) (options : Int) :
    Nat → MysqlConn → List Call → Bool → Except Fault (MysqlConn × List Call × Ptr)
  | 0, _, _, _ => .error .outOfFuel
  | fuel + 1, handle, calls, retry_flag =>
    if handle.msp.isNone then .ok (handle, calls, none)
    else
      match stores (calls.countP (·.isStore)) with
      | .stored result => .ok (handle, calls ++ [.mysql_store_result handle.msp], some result)
      | .null err =>
        let calls := calls ++ [.mysql_store_result handle.msp, .lib (.mysql_errno handle.msp)]
        if err ≥ ER_ERROR_FIRST ∧ err ≤ ER_ERROR_LAST then .ok (handle, calls, none)
        else if err = CR_SERVER_GONE_ERROR ∨ err = CR_SERVER_LOST then
          let retry_flag := if options % 2 ≠ MYSQL_CONN_RETRY then true else retry_flag
          if retry_flag then .ok (handle, calls, none)
          else
            match conn lib handle (calls ++ [.lib (.mysql_close handle.msp)]) with
            | (handle, calls, rc) =>
              if rc ≠ 0 then .ok ({ handle with msp := none }, calls, none)
              else store_loop ER_ERROR_LAST lib stores options fuel handle calls true
        else .ok (handle, calls, none)

def _mysql_store_result (ER_ERROR_LAST : Int) (lib : Library) (stores : Nat → StoreAnswer) (fuel : Nat)
    (handle : Option MysqlConn) (options : Int) : Except Fault (Option MysqlConn × List Call × Ptr) :=
  match handle with
  | none => .ok (none, [], none)
  | some handle =>
    if handle.msp.isNone then
      match conn lib handle [] with
      | (handle, calls, rc) =>
        if rc ≠ 0 then .ok (some handle, calls, none)
        else do
          let (handle, calls, result) ← store_loop ER_ERROR_LAST lib stores options fuel handle calls false
          .ok (some handle, calls, result)
    else do
      let (handle, calls, result) ← store_loop ER_ERROR_LAST lib stores options fuel handle [] false
      .ok (some handle, calls, result)

def ct_mysql_store_result (ER_ERROR_LAST : Int) (lib : Library) (stores : Nat → StoreAnswer) (fuel : Nat)
    (handle : Option MysqlConn) (options : Int) : Except Fault (Option MysqlConn × List Call × Ptr) :=
  _mysql_store_result ER_ERROR_LAST lib stores fuel handle options

def MYSQL_CONN_NAME_LEN : Nat := 128

/-- An `int` as an `unsigned int`. -/
def as_unsigned (x : Int) : Nat := (x % 2 ^ 32).toNat

/-- `alloced` tells whether `calloc` returns memory. The handle is freed when the
    connection fails. -/
def _mysql_init (lib : Library) (alloced : Bool) (db_host db_user db_pass db_name : Option (List UInt8))
    (db_port db_conn_timeout : Nat) : Option MysqlConn × List Call :=
  match db_host, db_user, db_pass, db_name with
  | some db_host, some db_user, some db_pass, some db_name =>
    if !alloced then (none, [])
    else
      let handle : MysqlConn :=
        { msp := none, db_host := db_host.take MYSQL_CONN_NAME_LEN, db_user := db_user.take MYSQL_CONN_NAME_LEN,
          db_pass := db_pass.take MYSQL_CONN_NAME_LEN, db_name := db_name.take MYSQL_CONN_NAME_LEN,
          db_port := db_port, db_conn_timeout := db_conn_timeout }
      match conn lib handle [] with
      | (handle, calls, rc) => if rc ≠ 0 then (none, calls) else (some handle, calls)
  | _, _, _, _ => (none, [])

def ct_mysql_connect (lib : Library) (alloced : Bool) (host : Option (List UInt8)) (port : Int)
    (user pass name : Option (List UInt8)) (db_conn_timeout : Int) : Option MysqlConn × List Call :=
  _mysql_init lib alloced host user pass name (as_unsigned port) (as_unsigned db_conn_timeout)

/-- `mysql_close` also takes `NULL`. -/
def _mysql_destroy (handle : MysqlConn) : List Call := [.lib (.mysql_close handle.msp)]

def ct_mysql_disconnect (mydb : Option MysqlConn) : List Call := mydb.elim [] _mysql_destroy

/-! ## Runs -/

inductive Command where
  | ct_mysql_query (lib : Library) (sql_string : Option (List UInt8)) (sql_len options : Int)
  | ct_mysql_store_result (lib : Library) (stores : Nat → StoreAnswer) (options : Int)

/-- One call on the handle, with the calls to the library that it makes. -/
def step (ER_ERROR_LAST : Int) (fuel : Nat) (handle : Option MysqlConn) :
    Command → Except Fault (Option MysqlConn × List Call)
  | .ct_mysql_query lib sql_string sql_len options => do
    let (handle, calls, _) ← ct_mysql_query ER_ERROR_LAST lib fuel handle sql_string sql_len options
    .ok (handle, calls.map .lib)
  | .ct_mysql_store_result lib stores options => do
    let (handle, calls, _) ← ct_mysql_store_result ER_ERROR_LAST lib stores fuel handle options
    .ok (handle, calls)

/-! ## Connections as objects -/

/-- What a call does with the object behind its pointer. -/
def LibCall.event : LibCall → Event Nat
  | .mysql_init msp => .acquire msp
  | .mysql_options_timeout msp _ => .use (some msp)
  | .mysql_options_charset msp _ => .use (some msp)
  | .mysql_real_connect msp _ _ _ _ _ => .use (some msp)
  | .mysql_autocommit msp => .use (some msp)
  | .mysql_real_query msp _ _ _ => .use msp
  | .mysql_error msp => .use msp
  | .mysql_errno msp => .use msp
  | .mysql_close msp => .release msp

def Call.event : Call → Event Nat
  | .lib call => call.event
  | .mysql_store_result msp => .use msp

def Call.isInit : Call → Bool
  | .lib call => call.isInit
  | .mysql_store_result _ => false

/-- The statement is sent, or its result fetched. -/
def Call.isRequest : Call → Bool
  | .lib call => call.isQuery
  | .mysql_store_result _ => true

/-- The connection attempts of one call on the handle after its first request:
    those that follow a lost connection. -/
def reconnects (calls : List Call) : Nat := (calls.dropWhile fun call => !call.isRequest).countP (·.isInit)

/-- The connection of a handle. -/
def held (handle : Option MysqlConn) : Ptr := handle.bind (·.msp)

/-! ## Connection attempts -/

/-- An object that is got and used. -/
theorem moves_opened {a : Nat} {uses : List (Event Nat)} (huses : ∀ e ∈ uses, e = .use (some a)) :
    Moves none (.acquire (some a) :: uses) (some a) :=
  (Moves.acquire (some a)).trans (Moves.uses huses)

/-- One that is closed again when something fails. -/
theorem moves_closed {a : Nat} {uses : List (Event Nat)} (huses : ∀ e ∈ uses, e = .use (some a)) :
    Moves none (.acquire (some a) :: (uses ++ [.release (some a)])) none :=
  (moves_opened huses).trans (Moves.release (some a))

/-- What an attempt leaves: a connection that is held, or none. Where it fails
    before `mysql_real_connect`, `msp` is left as it was. -/
structure Attempt (handle handle' : MysqlConn) (made : List LibCall) (rc : Int) : Prop where
  inits : made.countP (·.isInit) = 1
  queries : made.countP (·.isQuery) = 0
  connected : rc = 0 → handle'.msp.isSome ∧ Moves none (made.map LibCall.event) handle'.msp
  failed : rc ≠ 0 → Moves none (made.map LibCall.event) none ∧ (handle'.msp = none ∨ handle' = handle)

theorem _mysql_conn_attempt (lib : Library) (handle : MysqlConn) (calls : List LibCall) :
    ∃ handle' made rc, _mysql_conn lib handle calls = (handle', calls ++ made, rc) ∧
      Attempt handle handle' made rc := by
  unfold _mysql_conn
  dsimp only
  cases hinit : lib.mysql_init (calls.countP (·.isInit)) with
  | none => exact ⟨_, _, _, rfl, rfl, rfl, nofun, fun _ => ⟨Moves.acquire none, Or.inr rfl⟩⟩
  | some msp =>
    dsimp only
    cases htimeout : lib.timeout_set (calls.countP (·.isInit)) with
    | false =>
      rw [Bool.not_false, if_pos rfl, List.append_assoc]
      refine ⟨_, _, _, rfl, rfl, rfl, nofun, fun _ => ⟨?_, Or.inr rfl⟩⟩
      exact @moves_closed msp [.use (some msp), .use (some msp)] (by simp)
    | true =>
      rw [Bool.not_true, if_neg nofun]
      cases hcharset : lib.charset_set (calls.countP (·.isInit)) with
      | false =>
        rw [Bool.not_false, if_pos rfl, List.append_assoc, List.append_assoc]
        refine ⟨_, _, _, rfl, rfl, rfl, nofun, fun _ => ⟨?_, Or.inr rfl⟩⟩
        exact @moves_closed msp [.use (some msp), .use (some msp), .use (some msp)] (by simp)
      | true =>
        rw [Bool.not_true, if_neg nofun]
        cases hconnect : lib.mysql_real_connect (calls.countP (·.isInit)) with
        | false =>
          rw [Bool.not_false, if_pos rfl, List.append_assoc, List.append_assoc, List.append_assoc]
          refine ⟨_, _, _, rfl, rfl, rfl, nofun, fun _ => ⟨?_, Or.inl rfl⟩⟩
          exact @moves_closed msp [.use (some msp), .use (some msp), .use (some msp), .use (some msp)] (by simp)
        | true =>
          rw [Bool.not_true, if_neg nofun, List.append_assoc, List.append_assoc, List.append_assoc]
          refine ⟨_, _, _, rfl, rfl, rfl, fun _ => ⟨rfl, ?_⟩, fun hrc => absurd rfl hrc⟩
          exact @moves_opened msp [.use (some msp), .use (some msp), .use (some msp), .use (some msp)] (by simp)

/-- The same among the calls that also fetch results. -/
theorem conn_attempt (lib : Library) (handle : MysqlConn) (calls : List Call) :
    ∃ handle' made rc, conn lib handle calls = (handle', calls ++ made.map .lib, rc) ∧
      Attempt handle handle' made rc := by
  obtain ⟨handle', made, rc, hconn, hattempt⟩ := _mysql_conn_attempt lib handle (calls.filterMap Call.lib?)
  refine ⟨handle', made, rc, ?_, hattempt⟩
  unfold conn
  dsimp only
  rw [hconn]
  dsimp only
  rw [List.drop_left]

/-! ## The two loops -/

theorem map_event_lib (made : List LibCall) : (made.map Call.lib).map Call.event = made.map LibCall.event :=
  List.map_map

/-- A connection that is lost in use is closed, and a new one is tried for. When
    there is one the loop goes on. -/
theorem Attempt.after_loss {handle handle₁ : MysqlConn} {made : List LibCall} {rc : Int}
    (hattempt : Attempt handle handle₁ made rc) {msp : Nat} {q : Ptr} {uses rest : List Call}
    (huses : ∀ e ∈ uses.map Call.event, e = .use (some msp)) (hinits : uses.countP (·.isInit) = 0)
    (hconnected : rc = 0 → Moves handle₁.msp (rest.map Call.event) q ∧ rest.countP (·.isInit) = 0)
    (hfailed : rc ≠ 0 → rest = [] ∧ q = none) :
    Moves (some msp) ((uses ++ Call.lib (.mysql_close (some msp)) :: (made.map Call.lib ++ rest)).map Call.event) q ∧
      (uses ++ Call.lib (.mysql_close (some msp)) :: (made.map Call.lib ++ rest)).countP (·.isInit) ≤ 1 := by
  have hgot : Moves none ((made.map Call.lib ++ rest).map Call.event) q ∧ rest.countP (·.isInit) = 0 := by
    rw [List.map_append, map_event_lib]
    by_cases hrc : rc = 0
    · obtain ⟨hmoves, hnone⟩ := hconnected hrc
      exact ⟨(hattempt.connected hrc).2.trans hmoves, hnone⟩
    · obtain ⟨rfl, rfl⟩ := hfailed hrc
      exact ⟨(hattempt.failed hrc).1.trans (Moves.nil none), rfl⟩
  constructor
  · rw [List.map_append, List.map_cons]
    exact (Moves.uses huses).trans ((Moves.release (some msp)).trans hgot.1)
  · have hmade : (made.map Call.lib).countP (·.isInit) = 1 := by
      rw [List.countP_map]
      exact hattempt.inits
    rw [List.countP_append, List.countP_cons, List.countP_append, hinits, hmade, hgot.2]
    exact Nat.le_refl 1

/-- The retry flag stays down only when a retry is wanted and was not made. -/
theorem eq_false_of_retry {options : Int} {retry_flag : Bool}
    (hflag : ¬(if options % 2 ≠ MYSQL_CONN_RETRY then true else retry_flag) = true) : retry_flag = false := by
  cases retry_flag with
  | false => rfl
  | true => exact absurd (ite_self true) hflag

theorem query_loop_moves {ER_ERROR_LAST : Int} {lib : Library} {sql_string : List UInt8} {sql_len options : Int}
    {fuel : Nat} {handle handle' : MysqlConn} {calls calls' : List LibCall} {retry_flag : Bool} {rc : Int}
    (hmsp : handle.msp.isSome)
    (hloop : query_loop ER_ERROR_LAST lib sql_string sql_len options fuel handle calls retry_flag =
      .ok (handle', calls', rc)) :
    ∃ made : List Call, calls'.map Call.lib = calls.map .lib ++ made ∧
      Moves handle.msp (made.map Call.event) handle'.msp ∧
      made.countP (·.isInit) ≤ if retry_flag then 0 else 1 := by
  induction fuel generalizing handle calls retry_flag with
  | zero => cases hloop
  | succ fuel ih =>
    obtain ⟨msp, hmsp⟩ := Option.isSome_iff_exists.mp hmsp
    unfold query_loop at hloop
    cases hquery : lib.mysql_real_query (calls.countP (·.isQuery)) with
    | none =>
      simp only [hquery] at hloop
      cases hloop
      refine ⟨_, List.map_append, ?_, Nat.zero_le _⟩
      rw [hmsp]
      exact Moves.use msp
    | some err =>
      simp only [hquery, hmsp] at hloop
      have huses : ∀ e ∈ [Call.lib (.mysql_real_query (some msp) sql_string sql_len false),
          .lib (.mysql_error (some msp)), .lib (.mysql_errno (some msp))].map Call.event, e = .use (some msp) := by
        simp [Call.event, LibCall.event]
      have hused : Moves handle.msp [Event.use (some msp), .use (some msp), .use (some msp)] handle.msp := by
        rw [hmsp]
        exact Moves.uses huses
      split at hloop
      · cases hloop
        exact ⟨_, List.map_append, hused, Nat.zero_le _⟩
      split at hloop
      · by_cases hflag : (if options % 2 ≠ MYSQL_CONN_RETRY then true else retry_flag) = true
        · rw [if_pos hflag] at hloop
          cases hloop
          exact ⟨_, List.map_append, hused, Nat.zero_le _⟩
        · rw [if_neg hflag] at hloop
          rw [eq_false_of_retry hflag, hmsp]
          obtain ⟨handle₁, made, rc₁, hconn, hattempt⟩ := _mysql_conn_attempt lib handle
            (calls ++ [.mysql_real_query (some msp) sql_string sql_len false, .mysql_error (some msp),
              .mysql_errno (some msp)] ++ [.mysql_close (some msp)])
          simp only [hconn] at hloop
          by_cases hrc : rc₁ = 0
          · rw [if_neg (not_not_intro hrc)] at hloop
            obtain ⟨rest, hcalls, hrest, hinits⟩ := ih (hattempt.connected hrc).1 hloop
            obtain ⟨hmoves, honce⟩ := hattempt.after_loss huses rfl (fun _ => ⟨hrest, Nat.le_zero.mp hinits⟩)
              fun hfailed => absurd hrc hfailed
            refine ⟨_, ?_, hmoves, honce⟩
            rw [hcalls]
            simp
          · rw [if_pos hrc] at hloop
            cases hloop
            obtain ⟨hmoves, honce⟩ := hattempt.after_loss huses rfl (fun hzero => absurd hzero hrc)
              fun _ => ⟨rfl, rfl⟩
            exact ⟨_, by simp, hmoves, honce⟩
      · cases hloop
        exact ⟨_, List.map_append, hused, Nat.zero_le _⟩

/-- The loop of the other call does the same. -/
theorem store_loop_moves {ER_ERROR_LAST : Int} {lib : Library} {stores : Nat → StoreAnswer} {options : Int}
    {fuel : Nat} {handle handle' : MysqlConn} {calls calls' : List Call} {retry_flag : Bool} {result : Ptr}
    (hmsp : handle.msp.isSome)
    (hloop : store_loop ER_ERROR_LAST lib stores options fuel handle calls retry_flag =
      .ok (handle', calls', result)) :
    ∃ made, calls' = calls ++ made ∧ Moves handle.msp (made.map Call.event) handle'.msp ∧
      made.countP (·.isInit) ≤ if retry_flag then 0 else 1 := by
  induction fuel generalizing handle calls retry_flag with
  | zero => cases hloop
  | succ fuel ih =>
    obtain ⟨msp, hmsp⟩ := Option.isSome_iff_exists.mp hmsp
    unfold store_loop at hloop
    rw [hmsp, if_neg nofun] at hloop
    have huses : ∀ e ∈ [Call.mysql_store_result (some msp), .lib (.mysql_errno (some msp))].map Call.event,
        e = .use (some msp) := by simp [Call.event, LibCall.event]
    have hused : Moves handle.msp [Event.use (some msp), .use (some msp)] handle.msp := by
      rw [hmsp]
      exact Moves.uses huses
    cases hstore : stores (calls.countP (·.isStore)) with
    | stored result =>
      simp only [hstore] at hloop
      cases hloop
      refine ⟨_, rfl, ?_, Nat.zero_le _⟩
      rw [hmsp]
      exact Moves.use msp
    | null err =>
      simp only [hstore] at hloop
      split at hloop
      · cases hloop
        exact ⟨_, rfl, hused, Nat.zero_le _⟩
      split at hloop
      · by_cases hflag : (if options % 2 ≠ MYSQL_CONN_RETRY then true else retry_flag) = true
        · rw [if_pos hflag] at hloop
          cases hloop
          exact ⟨_, rfl, hused, Nat.zero_le _⟩
        · rw [if_neg hflag] at hloop
          rw [eq_false_of_retry hflag, hmsp]
          obtain ⟨handle₁, made, rc₁, hconn, hattempt⟩ := conn_attempt lib handle
            (calls ++ [.mysql_store_result (some msp), .lib (.mysql_errno (some msp))] ++
              [.lib (.mysql_close (some msp))])
          simp only [hconn] at hloop
          by_cases hrc : rc₁ = 0
          · rw [if_neg (not_not_intro hrc)] at hloop
            obtain ⟨rest, hcalls, hrest, hinits⟩ := ih (hattempt.connected hrc).1 hloop
            obtain ⟨hmoves, honce⟩ := hattempt.after_loss huses rfl (fun _ => ⟨hrest, Nat.le_zero.mp hinits⟩)
              fun hfailed => absurd hrc hfailed
            refine ⟨_, ?_, hmoves, honce⟩
            rw [hcalls]
            simp
          · rw [if_pos hrc] at hloop
            cases hloop
            obtain ⟨hmoves, honce⟩ := hattempt.after_loss huses rfl (fun hzero => absurd hzero hrc)
              fun _ => ⟨rfl, rfl⟩
            exact ⟨_, by simp, hmoves, honce⟩
      · cases hloop
        exact ⟨_, rfl, hused, Nat.zero_le _⟩

/-! ## One call on the handle -/

/-- The call keeps the handle's connection, or changes it for a new one or for
    none, and connects again at most once. -/
structure Kept (handle handle' : Option MysqlConn) (made : List Call) : Prop where
  moves : Moves (held handle) (made.map Call.event) (held handle')
  once : reconnects made ≤ 1

theorem reconnects_le (made : List Call) : reconnects made ≤ made.countP (·.isInit) :=
  (List.dropWhile_sublist _).countP_le

/-- An attempt before the first request is not counted. -/
theorem reconnects_attempt {made : List LibCall} (hqueries : made.countP (·.isQuery) = 0) (calls : List Call) :
    reconnects (made.map .lib ++ calls) = reconnects calls := by
  unfold reconnects
  rw [List.dropWhile_append_of_pos]
  intro call hcall
  obtain ⟨libcall, hmem, rfl⟩ := List.mem_map.mp hcall
  have hnot := List.countP_eq_zero.mp hqueries libcall hmem
  simpa [Call.isRequest] using hnot

theorem kept_of_loop {handle handle' : MysqlConn} {made : List Call}
    (hmoves : Moves handle.msp (made.map Call.event) handle'.msp) (hinits : made.countP (·.isInit) ≤ 1) :
    Kept (some handle) (some handle') made :=
  ⟨hmoves, Nat.le_trans (reconnects_le made) hinits⟩

theorem kept_of_failed {handle handle₁ : MysqlConn} {made : List LibCall} {rc : Int} (hmsp : handle.msp = none)
    (hattempt : Attempt handle handle₁ made rc) (hrc : rc ≠ 0) :
    Kept (some handle) (some handle₁) (made.map .lib) := by
  obtain ⟨hmoves, hleft⟩ := hattempt.failed hrc
  have hmsp₁ : handle₁.msp = none := by
    rcases hleft with hnone | rfl
    · exact hnone
    · exact hmsp
  refine ⟨?_, ?_⟩
  · rw [map_event_lib]
    show Moves handle.msp _ handle₁.msp
    rwa [hmsp, hmsp₁]
  · have hcount := reconnects_attempt hattempt.queries []
    rw [List.append_nil] at hcount
    rw [hcount]
    exact Nat.zero_le 1

theorem kept_of_attempt {handle handle₁ handle' : MysqlConn} {made : List LibCall} {calls : List Call}
    (hmsp : handle.msp = none) (hattempt : Attempt handle handle₁ made 0)
    (hmoves : Moves handle₁.msp (calls.map Call.event) handle'.msp) (hinits : calls.countP (·.isInit) ≤ 1) :
    Kept (some handle) (some handle') (made.map .lib ++ calls) := by
  refine ⟨?_, ?_⟩
  · rw [List.map_append, map_event_lib]
    show Moves handle.msp _ handle'.msp
    rw [hmsp]
    exact (hattempt.connected rfl).2.trans hmoves
  · rw [reconnects_attempt hattempt.queries]
    exact Nat.le_trans (reconnects_le calls) hinits

theorem kept_same (handle : Option MysqlConn) : Kept handle handle [] := ⟨Moves.nil _, Nat.zero_le 1⟩

theorem ct_mysql_query_kept {ER_ERROR_LAST : Int} {lib : Library} {fuel : Nat} {handle handle' : Option MysqlConn}
    {sql_string : Option (List UInt8)} {sql_len options rc : Int} {calls : List LibCall}
    (hquery : ct_mysql_query ER_ERROR_LAST lib fuel handle sql_string sql_len options = .ok (handle', calls, rc)) :
    Kept handle handle' (calls.map .lib) := by
  unfold ct_mysql_query _mysql_query at hquery
  cases handle with
  | none =>
    cases hquery
    exact kept_same none
  | some handle =>
    cases sql_string with
    | none =>
      cases hquery
      exact kept_same (some handle)
    | some sql_string =>
      dsimp only at hquery
      obtain ⟨handle₁, made, rc₁, hconn, hattempt⟩ := _mysql_conn_attempt lib handle []
      rw [List.nil_append] at hconn
      split at hquery
      · next hmsp =>
        rw [Option.isNone_iff_eq_none] at hmsp
        simp only [hconn] at hquery
        split at hquery
        · next hrc =>
          cases hquery
          exact kept_of_failed hmsp hattempt hrc
        · next hrc =>
          obtain rfl : rc₁ = 0 := not_not.mp hrc
          obtain ⟨⟨handle₂, calls₂, rc₂⟩, hloop, hdone⟩ := bind_eq_ok_iff.mp hquery
          cases hdone
          obtain ⟨rest, hcalls, hmoves, hinits⟩ := query_loop_moves (hattempt.connected rfl).1 hloop
          rw [hcalls]
          exact kept_of_attempt hmsp hattempt hmoves hinits
      · next hmsp =>
        obtain ⟨⟨handle₂, calls₂, rc₂⟩, hloop, hdone⟩ := bind_eq_ok_iff.mp hquery
        cases hdone
        obtain ⟨rest, hcalls, hmoves, hinits⟩ :=
          query_loop_moves (by simpa [Option.isSome_iff_ne_none] using hmsp) hloop
        rw [hcalls]
        exact kept_of_loop hmoves hinits

theorem ct_mysql_store_result_kept {ER_ERROR_LAST : Int} {lib : Library} {stores : Nat → StoreAnswer} {fuel : Nat}
    {handle handle' : Option MysqlConn} {options : Int} {result : Ptr} {calls : List Call}
    (hstore : ct_mysql_store_result ER_ERROR_LAST lib stores fuel handle options = .ok (handle', calls, result)) :
    Kept handle handle' calls := by
  unfold ct_mysql_store_result _mysql_store_result at hstore
  cases handle with
  | none =>
    cases hstore
    exact kept_same none
  | some handle =>
    dsimp only at hstore
    obtain ⟨handle₁, made, rc₁, hconn, hattempt⟩ := conn_attempt lib handle []
    rw [List.nil_append] at hconn
    split at hstore
    · next hmsp =>
      rw [Option.isNone_iff_eq_none] at hmsp
      simp only [hconn] at hstore
      split at hstore
      · next hrc =>
        cases hstore
        exact kept_of_failed hmsp hattempt hrc
      · next hrc =>
        obtain rfl : rc₁ = 0 := not_not.mp hrc
        obtain ⟨⟨handle₂, calls₂, result₂⟩, hloop, hdone⟩ := bind_eq_ok_iff.mp hstore
        cases hdone
        obtain ⟨rest, rfl, hmoves, hinits⟩ := store_loop_moves (hattempt.connected rfl).1 hloop
        exact kept_of_attempt hmsp hattempt hmoves hinits
    · next hmsp =>
      obtain ⟨⟨handle₂, calls₂, result₂⟩, hloop, hdone⟩ := bind_eq_ok_iff.mp hstore
      cases hdone
      obtain ⟨rest, rfl, hmoves, hinits⟩ :=
        store_loop_moves (by simpa [Option.isSome_iff_ne_none] using hmsp) hloop
      exact kept_of_loop hmoves hinits

/-! ## Every call returns -/

/-- Without a retry left one turn is enough. -/
theorem store_loop_final (ER_ERROR_LAST : Int) (lib : Library) (stores : Nat → StoreAnswer) (options : Int)
    (fuel : Nat) (handle : MysqlConn) (calls : List Call) :
    ∃ returned, store_loop ER_ERROR_LAST lib stores options (fuel + 1) handle calls true = .ok returned := by
  unfold store_loop
  split
  · exact ⟨_, rfl⟩
  · dsimp only
    split
    · exact ⟨_, rfl⟩
    · split
      · exact ⟨_, rfl⟩
      · rw [ite_self, if_pos rfl]
        split <;> exact ⟨_, rfl⟩

theorem store_loop_returns (ER_ERROR_LAST : Int) (lib : Library) (stores : Nat → StoreAnswer) (options : Int)
    (fuel : Nat) (handle : MysqlConn) (calls : List Call) :
    ∃ returned, store_loop ER_ERROR_LAST lib stores options (fuel + 2) handle calls false = .ok returned := by
  unfold store_loop
  split
  · exact ⟨_, rfl⟩
  · dsimp only
    split
    · exact ⟨_, rfl⟩
    · split
      · exact ⟨_, rfl⟩
      · split
        · by_cases hflag : (if options % 2 ≠ MYSQL_CONN_RETRY then true else false) = true
          · rw [if_pos hflag]
            exact ⟨_, rfl⟩
          · rw [if_neg hflag]
            split
            · exact ⟨_, rfl⟩
            · exact store_loop_final ER_ERROR_LAST lib stores options fuel _ _
        · exact ⟨_, rfl⟩

theorem ct_mysql_store_result_returns (ER_ERROR_LAST : Int) (lib : Library) (stores : Nat → StoreAnswer)
    (fuel : Nat) (handle : Option MysqlConn) (options : Int) :
    ∃ returned, ct_mysql_store_result ER_ERROR_LAST lib stores (fuel + 2) handle options = .ok returned := by
  unfold ct_mysql_store_result _mysql_store_result
  cases handle with
  | none => exact ⟨_, rfl⟩
  | some handle =>
    dsimp only
    split
    · split
      · exact ⟨_, rfl⟩
      · obtain ⟨⟨handle', calls, result⟩, hloop⟩ :=
          store_loop_returns ER_ERROR_LAST lib stores options fuel (conn lib handle []).1 (conn lib handle []).2.1
        rw [hloop]
        exact ⟨_, rfl⟩
    · obtain ⟨⟨handle', calls, result⟩, hloop⟩ :=
        store_loop_returns ER_ERROR_LAST lib stores options fuel handle []
      rw [hloop]
      exact ⟨_, rfl⟩

theorem ct_mysql_query_returns (ER_ERROR_LAST : Int) (lib : Library) (fuel : Nat) (handle : Option MysqlConn)
    (sql_string : Option (List UInt8)) (sql_len options : Int) :
    ∃ returned, ct_mysql_query ER_ERROR_LAST lib (fuel + 2) handle sql_string sql_len options = .ok returned := by
  unfold ct_mysql_query
  cases handle with
  | none => exact ⟨_, rfl⟩
  | some handle =>
    cases sql_string with
    | none => exact ⟨_, rfl⟩
    | some sql_string =>
      cases hmsp : handle.msp with
      | none =>
        obtain ⟨handle', calls, rc, hreturns, _⟩ :=
          _mysql_query_unconnected ER_ERROR_LAST lib hmsp sql_string sql_len options
        exact ⟨_, hreturns fuel⟩
      | some msp =>
        obtain ⟨handle', calls, rc, hreturns, _⟩ := _mysql_query_connected ER_ERROR_LAST lib
          (by rw [hmsp]; rfl : handle.msp.isSome) sql_string sql_len options
        exact ⟨_, hreturns fuel⟩

/-! ## From the connection to the end -/

theorem step_returns (ER_ERROR_LAST : Int) (fuel : Nat) (handle : Option MysqlConn) (command : Command) :
    ∃ handle' made, step ER_ERROR_LAST (fuel + 2) handle command = .ok (handle', made) := by
  cases command with
  | ct_mysql_query lib sql_string sql_len options =>
    obtain ⟨⟨handle', calls, rc⟩, hquery⟩ :=
      ct_mysql_query_returns ER_ERROR_LAST lib fuel handle sql_string sql_len options
    simp only [step, hquery]
    exact ⟨_, _, rfl⟩
  | ct_mysql_store_result lib stores options =>
    obtain ⟨⟨handle', calls, result⟩, hstore⟩ :=
      ct_mysql_store_result_returns ER_ERROR_LAST lib stores fuel handle options
    simp only [step, hstore]
    exact ⟨_, _, rfl⟩

theorem step_kept {ER_ERROR_LAST : Int} {fuel : Nat} {handle handle' : Option MysqlConn} {command : Command}
    {made : List Call} (hstep : step ER_ERROR_LAST fuel handle command = .ok (handle', made)) :
    Kept handle handle' made := by
  cases command with
  | ct_mysql_query lib sql_string sql_len options =>
    obtain ⟨⟨handle₁, calls, rc⟩, hquery, hdone⟩ := bind_eq_ok_iff.mp hstep
    cases hdone
    exact ct_mysql_query_kept hquery
  | ct_mysql_store_result lib stores options =>
    obtain ⟨⟨handle₁, calls, result⟩, hstore, hdone⟩ := bind_eq_ok_iff.mp hstep
    cases hdone
    exact ct_mysql_store_result_kept hstore

/-- Any sequence of calls on the handle. -/
theorem run_kept (ER_ERROR_LAST : Int) (fuel : Nat) (handle : Option MysqlConn) (commands : List Command) :
    ∃ handle' outputs, run (step ER_ERROR_LAST (fuel + 2)) handle commands = .ok (handle', outputs) ∧
      Moves (held handle) (outputs.flatten.map Call.event) (held handle') ∧
      ∀ made ∈ outputs, reconnects made ≤ 1 := by
  induction commands generalizing handle with
  | nil => exact ⟨handle, [], rfl, Moves.nil _, nofun⟩
  | cons command commands ih =>
    obtain ⟨handle₁, made, hstep⟩ := step_returns ER_ERROR_LAST fuel handle command
    obtain ⟨handle', outputs, hrun, hmoves, honce⟩ := ih handle₁
    have hkept := step_kept hstep
    refine ⟨handle', made :: outputs, run_cons_eq_ok_iff.mpr ⟨handle₁, made, outputs, hstep, hrun, rfl⟩, ?_, ?_⟩
    · rw [List.flatten_cons, List.map_append]
      exact hkept.moves.trans hmoves
    · intro other hother
      rcases List.mem_cons.mp hother with rfl | hother
      · exact hkept.once
      · exact honce other hother

theorem ct_mysql_connect_moves (lib : Library) (alloced : Bool) (host : Option (List UInt8)) (port : Int)
    (user pass name : Option (List UInt8)) (db_conn_timeout : Int) {handle : Option MysqlConn} {calls : List Call}
    (hconnect : ct_mysql_connect lib alloced host port user pass name db_conn_timeout = (handle, calls)) :
    Moves none (calls.map Call.event) (held handle) := by
  unfold ct_mysql_connect _mysql_init at hconnect
  split at hconnect
  · split at hconnect
    · cases hconnect
      exact Moves.nil none
    · next db_host db_user db_pass db_name _ _ _ =>
      dsimp only at hconnect
      obtain ⟨handle₁, made, rc, hconn, hattempt⟩ := conn_attempt lib _ []
      rw [hconn, List.nil_append] at hconnect
      dsimp only at hconnect
      split at hconnect
      · next hrc =>
        cases hconnect
        rw [map_event_lib]
        exact (hattempt.failed hrc).1
      · next hrc =>
        cases hconnect
        rw [map_event_lib]
        exact (hattempt.connected (not_not.mp hrc)).2
  · cases hconnect
    exact Moves.nil none

theorem ct_mysql_disconnect_moves (handle : Option MysqlConn) :
    Moves (held handle) ((ct_mysql_disconnect handle).map Call.event) none := by
  cases handle with
  | none => exact Moves.nil none
  | some handle => exact Moves.release handle.msp

/-- From `ct_mysql_connect` to `ct_mysql_disconnect`, whatever is called in between
    and whatever the library answers: every call returns; no connection is used or
    closed that is not open at that moment, and each is closed as often as it was
    got; between two calls `msp` is `NULL` or open; and no call connects again more
    than once after it lost the connection. -/
theorem connection_lifecycle (ER_ERROR_LAST : Int) (lib : Library) (alloced : Bool) (host : Option (List UInt8))
    (port : Int) (user pass name : Option (List UInt8)) (db_conn_timeout : Int) (commands : List Command)
    (fuel : Nat) :
    ∃ handle calls handle' outputs,
      ct_mysql_connect lib alloced host port user pass name db_conn_timeout = (handle, calls) ∧
      run (step ER_ERROR_LAST (fuel + 2)) handle commands = .ok (handle', outputs) ∧
      Lawful ((calls ++ outputs.flatten ++ ct_mysql_disconnect handle').map Call.event) ∧
      (∀ msp, acquired ((calls ++ outputs.flatten ++ ct_mysql_disconnect handle').map Call.event) msp =
        released ((calls ++ outputs.flatten ++ ct_mysql_disconnect handle').map Call.event) msp) ∧
      (∀ msp, held handle' = some msp → Open ((calls ++ outputs.flatten).map Call.event) msp) ∧
      ∀ made ∈ outputs, reconnects made ≤ 1 := by
  obtain ⟨⟨handle, calls⟩, hconnect⟩ :
      ∃ made, ct_mysql_connect lib alloced host port user pass name db_conn_timeout = made := ⟨_, rfl⟩
  obtain ⟨handle', outputs, hrun, hmoves, honce⟩ := run_kept ER_ERROR_LAST fuel handle commands
  have hconnected := ct_mysql_connect_moves lib alloced host port user pass name db_conn_timeout hconnect
  have hbetween : Holds ((calls ++ outputs.flatten).map Call.event) (held handle') := by
    rw [List.map_append]
    exact (hconnected.trans hmoves) [] Holds.nil
  have hend : Holds ((calls ++ outputs.flatten ++ ct_mysql_disconnect handle').map Call.event) none := by
    rw [List.map_append]
    exact ct_mysql_disconnect_moves handle' _ hbetween
  exact ⟨handle, calls, handle', outputs, hconnect, hrun, hend.lawful, hend.acquired_eq_released,
    fun msp hmsp => hbetween.open_iff.mpr hmsp, honce⟩

end code_tools.ctapi_mysql
