import Mathlib.Data.Int.Order.Basic
import BoatRudder.Runs.Machine

/-! # The accept loop and its connection threads

The life of a connection through `accept_loop_thread`, `spawn_thread` and `connection_thread`, one
atomic step for each call that can fail. The steps of different connections interleave freely; the
outcome of a call is an input of the step, so that every call may fail at any time.
`active_connections` is what `try_register_connection` and `unregister_connection` count. -/

namespace BoatRudder.WebServer

/-! ## The counter -/

/-- `try_register_connection`: the counter after the call, and whether the connection got in. -/
def tryRegisterConnection (maxConnections active : ℤ) : ℤ × Bool :=
  if active < maxConnections then (active + 1, true) else (active, false)

/-- `unregister_connection`. -/
def unregisterConnection (active : ℤ) : ℤ := if 0 < active then active - 1 else active

/-! ## The life of a connection -/

/-- The call a connection is at. -/
inductive Point
  /-- Accepted: `rate_limited_at_accept`. -/
  | rateLimit
  /-- `try_register_connection`. -/
  | register
  /-- Turned away: `reject_http_connection`, or `close` on the HTTPS listener. -/
  | reject
  /-- Registered: `SSL_new`, on the HTTPS listener. -/
  | sslNew
  /-- `spawn_thread`: `malloc` of the arguments. -/
  | mallocArgs
  /-- `spawn_thread`: `pthread_create`. -/
  | pthreadCreate
  /-- `connection_thread`: `malloc` of the connection. -/
  | mallocConn
  /-- `read_proxy_header`, with `proxy_protocol` set. -/
  | readProxyHeader
  /-- `server_ip_rate_limited`, for the address in the header. -/
  | ipRateLimit
  /-- `SSL_accept`, on a TLS connection. -/
  | sslAccept
  /-- `http_route`. -/
  | httpRoute
  /-- The label `cleanup`: the TLS object and the socket are closed, the memory is freed. -/
  | cleanup
  /-- Everything is closed: `unregister_connection`. -/
  | unregister
  /-- The connection was turned away. -/
  | turnedAway
  /-- The connection is over. -/
  | over
  deriving DecidableEq

/-- Whether a connection is still in the hands of the accept loop. -/
def Point.inLoop : Point → Bool
  | .rateLimit | .register | .reject | .sslNew | .mallocArgs | .pthreadCreate => true
  | _ => false

/-- A connection. The two counts are its history: how often it was registered, and unregistered. -/
structure Conn where
  /-- Whether it came in on the HTTPS listener. -/
  https : Bool
  /-- The call it is at. -/
  point : Point := .rateLimit
  /-- The calls of `try_register_connection` that registered it. -/
  registered : ℕ := 0
  /-- The calls of `unregister_connection` for it. -/
  unregistered : ℕ := 0

/-- What the listener is configured with. -/
structure ListenerSettings where
  /-- `ddos_max_connections`. -/
  maxConnections : ℤ := 200
  /-- `proxy_protocol`. -/
  proxyProtocol : Bool := false

/-- The state of the listener. -/
structure Listener where
  /-- `active_connections`. -/
  active : ℤ := 0
  /-- The connections accepted so far, oldest first. -/
  conns : List Conn := []

/-- Where a connection goes from a call that does not touch the counter, by whether the call failed
(for a rate limit: by whether the connection is over it). -/
def Point.next (s : ListenerSettings) (https failed : Bool) : Point → Point
  | .rateLimit => if failed then .reject else .register
  | .reject => .turnedAway
  | .sslNew => if https && failed then .unregister else .mallocArgs
  | .mallocArgs => if failed then .unregister else .pthreadCreate
  | .pthreadCreate => if failed then .unregister else .mallocConn
  | .mallocConn =>
    -- a failure frees the arguments and closes everything right here
    if failed then .unregister
    else if s.proxyProtocol then .readProxyHeader else .sslAccept
  | .readProxyHeader => if failed then .cleanup else .ipRateLimit
  | .ipRateLimit => if failed then .cleanup else .sslAccept
  | .sslAccept => if https && failed then .cleanup else .httpRoute
  | .httpRoute => .cleanup
  | .cleanup => .unregister
  | p => p

/-- One step of a connection: the counter and the connection after it. -/
def Conn.step (s : ListenerSettings) (failed : Bool) (active : ℤ) (c : Conn) : ℤ × Conn :=
  match c.point with
  | .register =>
    let r := tryRegisterConnection s.maxConnections active
    if r.2 then (r.1, { c with point := .sslNew, registered := c.registered + 1 })
    else (r.1, { c with point := .reject })
  | .unregister =>
    (unregisterConnection active,
      { c with point := .over, unregistered := c.unregistered + 1 })
  | p => (active, { c with point := p.next s c.https failed })

/-- What happens next. -/
inductive ListenerEvent
  /-- The accept loop takes a connection from a listener. -/
  | accept (https : Bool)
  /-- The connection with an index makes its call, which fails or not. -/
  | step (i : ℕ) (failed : Bool)

/-- The listener as a machine. The accept loop takes a connection only when it is done with the one
before. -/
def listener (s : ListenerSettings) : Machine Listener ListenerEvent Unit where
  init := {}
  step st
    | .accept https =>
      if st.conns.any fun c => c.point.inLoop then (st, ())
      else ({ st with conns := st.conns ++ [{ https := https }] }, ())
    | .step i failed =>
      match st.conns[i]? with
      | some c =>
        let r := c.step s failed st.active
        ({ active := r.1, conns := st.conns.set i r.2 }, ())
      | none => (st, ())

/-! ## What is counted -/

/-- Whether a connection is registered and not yet finished. -/
def Conn.unfinished (c : Conn) : Bool := 0 < c.registered && c.point ≠ .over

/-- Whether a connection at a call was not registered. -/
def Point.notRegistered : Point → Bool
  | .rateLimit | .register | .reject | .turnedAway => true
  | _ => false

/-- What the call a connection is at says of its history. -/
structure Conn.Ok (c : Conn) : Prop where
  /-- It was registered once, unless it is not that far or was turned away. -/
  registered_eq : c.registered = if c.point.notRegistered then 0 else 1
  /-- It was unregistered once it is over, and not before. -/
  unregistered_eq : c.unregistered = if c.point = .over then 1 else 0

/-- A connection with that history is unfinished between the two calls. -/
theorem Conn.Ok.unfinished_eq {c : Conn} (h : c.Ok) :
    c.unfinished = (!c.point.notRegistered && c.point ≠ .over) := by
  rw [Conn.unfinished, h.registered_eq]
  cases c.point.notRegistered <;> rfl

/-- The calls that do not touch the counter lead neither into the registered part of the code nor
out of it, and none of them is the last. -/
theorem Point.next_class (s : ListenerSettings) (https failed : Bool) {p : Point}
    (hreg : p ≠ .register) (hunreg : p ≠ .unregister) :
    (p.next s https failed).notRegistered = p.notRegistered ∧
      (p.next s https failed = .over ↔ p = .over) := by
  cases p <;> try contradiction
  all_goals
    unfold Point.next
    split_ifs <;> simp [notRegistered]

/-- What holds of the listener after every run. -/
structure ListenerInv (s : ListenerSettings) (st : Listener) : Prop where
  /-- Every connection has the history its place says. -/
  ok : ∀ c ∈ st.conns, c.Ok
  /-- The counter counts the registered connections that are not finished. -/
  active_eq : st.active = st.conns.countP Conn.unfinished
  /-- The counter is within the limit. -/
  active_le : st.active ≤ max s.maxConnections 0

/-! ## Steps -/

/-- What a connection adds to the number of unfinished ones. -/
def Conn.weight (c : Conn) : ℤ := if c.unfinished then 1 else 0

/-- **What one step of a connection does**: its history stays true, the counter follows it, and it
goes over the limit by no registration. -/
theorem Conn.Ok.step {c : Conn} (h : c.Ok) (s : ListenerSettings) (failed : Bool) {active : ℤ}
    (hpos : c.unfinished = true → 0 < active) (hle : active ≤ max s.maxConnections 0) :
    (c.step s failed active).2.Ok ∧
      (c.step s failed active).1 + c.weight = active + (c.step s failed active).2.weight ∧
      (c.step s failed active).1 ≤ max s.maxConnections 0 := by
  by_cases hreg : c.point = .register
  · have hbefore : c.unfinished = false := by simp [h.unfinished_eq, hreg, Point.notRegistered]
    have hr : c.registered = 0 := by simp [h.registered_eq, hreg, Point.notRegistered]
    have hu : c.unregistered = 0 := by simp [h.unregistered_eq, hreg]
    unfold Conn.step tryRegisterConnection
    rw [hreg]
    by_cases hroom : active < s.maxConnections
    · simp only [if_pos hroom, if_true]
      refine ⟨⟨by simp [hr, Point.notRegistered], by simp [hu]⟩, ?_, ?_⟩
      · simp [Conn.weight, Conn.unfinished, hr]
      · exact le_trans (Int.add_one_le_iff.mpr hroom) (le_max_left _ _)
    · simp only [if_neg hroom, Bool.false_eq_true, if_false]
      refine ⟨⟨by simp [hr, Point.notRegistered], by simp [hu]⟩, ?_, hle⟩
      simp [Conn.weight, Conn.unfinished, hr]
  · by_cases hunreg : c.point = .unregister
    · have hbefore : c.unfinished = true := by simp [h.unfinished_eq, hunreg, Point.notRegistered]
      have hr : c.registered = 1 := by simp [h.registered_eq, hunreg, Point.notRegistered]
      have hu : c.unregistered = 0 := by simp [h.unregistered_eq, hunreg]
      unfold Conn.step unregisterConnection
      rw [hunreg]
      simp only [if_pos (hpos hbefore)]
      refine ⟨⟨by simp [hr, Point.notRegistered], by simp [hu]⟩, ?_, by omega⟩
      simp [Conn.weight, Conn.unfinished, hunreg, hr]
    · obtain ⟨hclass, hover⟩ := Point.next_class s c.https failed hreg hunreg
      have hstep : c.step s failed active =
          (active, { c with point := c.point.next s c.https failed }) := by
        unfold Conn.step
        split
        · contradiction
        · contradiction
        · rfl
      have hok : ({ c with point := c.point.next s c.https failed } : Conn).Ok :=
        ⟨by simpa [hclass] using h.registered_eq, by simpa [hover] using h.unregistered_eq⟩
      rw [hstep]
      refine ⟨hok, ?_, hle⟩
      simp [Conn.weight, h.unfinished_eq, hok.unfinished_eq, hclass, hover]

theorem listenerInv_init (s : ListenerSettings) : ListenerInv s (listener s).init where
  ok := by simp [listener]
  active_eq := rfl
  active_le := le_max_right _ _

/-- **Every step keeps the invariant.** -/
theorem ListenerInv.step {s : ListenerSettings} {st : Listener} (h : ListenerInv s st)
    (e : ListenerEvent) : ListenerInv s ((listener s).step st e).1 := by
  cases e with
  | accept https =>
    show ListenerInv s (if _ then _ else _ : Listener × Unit).1
    split_ifs with hbusy
    · exact h
    · constructor
      · intro c hc
        rcases List.mem_append.mp hc with hc | hc
        · exact h.ok c hc
        · rw [List.mem_singleton.mp hc]
          exact ⟨rfl, rfl⟩
      · rw [List.countP_append]
        simpa [Conn.unfinished] using h.active_eq
      · exact h.active_le
  | step i failed =>
    show ListenerInv s (match st.conns[i]? with | some c => _ | none => _ : Listener × Unit).1
    cases hc : st.conns[i]? with
    | none => exact h
    | some c =>
      obtain ⟨hi, rfl⟩ := List.getElem?_eq_some_iff.mp hc
      have hmem : st.conns[i] ∈ st.conns := List.getElem_mem hi
      have hpos : st.conns[i].unfinished = true → 0 < st.active := by
        intro hunfinished
        rw [h.active_eq]
        exact Int.natCast_pos.mpr (List.countP_pos_iff.mpr ⟨_, hmem, hunfinished⟩)
      obtain ⟨hok, hcount, hle⟩ := (h.ok _ hmem).step s failed hpos h.active_le
      constructor
      · intro c' hc'
        rcases List.mem_or_eq_of_mem_set hc' with hc' | rfl
        · exact h.ok c' hc'
        · exact hok
      · show (st.conns[i].step s failed st.active).1 = _
        rw [List.countP_set hi]
        have heq := h.active_eq
        unfold Conn.weight at hcount
        by_cases hu : st.conns[i].unfinished = true
        · have := hpos hu
          rw [if_pos hu] at hcount ⊢
          split_ifs at hcount ⊢ <;> omega
        · rw [if_neg hu] at hcount ⊢
          split_ifs at hcount ⊢ <;> omega
      · exact hle

/-- **The invariant holds after every run.** -/
theorem listenerInv_after (s : ListenerSettings) (run : List ListenerEvent) :
    ListenerInv s ((listener s).after run) :=
  @Machine.after_induction _ _ _ (listener s) (fun _ st => ListenerInv s st) (listenerInv_init s)
    (fun _ e h => h.step e) run

/-! ## Every connection comes to its end -/

/-- How many calls a connection has before it at most. -/
def Point.rank : Point → ℕ
  | .rateLimit => 12
  | .register => 11
  | .sslNew => 10
  | .mallocArgs => 9
  | .pthreadCreate => 8
  | .mallocConn => 7
  | .readProxyHeader => 6
  | .ipRateLimit => 5
  | .sslAccept => 4
  | .httpRoute => 3
  | .cleanup => 2
  | .reject | .unregister => 1
  | .turnedAway | .over => 0

theorem Point.rank_le (p : Point) : p.rank ≤ 12 := by
  cases p <;> decide

/-- Every call takes a connection nearer to its end. -/
theorem Conn.rank_step (s : ListenerSettings) (failed : Bool) (active : ℤ) (c : Conn) :
    (c.step s failed active).2.point.rank ≤ c.point.rank - 1 := by
  unfold Conn.step tryRegisterConnection
  cases hp : c.point <;> simp only [Point.next]
  all_goals first
    | split_ifs <;> simp [Point.rank]
    | simp [Point.rank]

/-- The calls of a connection in a run. -/
def stepsOf (i : ℕ) (run : List ListenerEvent) : ℕ :=
  run.countP fun | .step j _ => j = i | .accept _ => false

theorem stepsOf_append (i : ℕ) (run more : List ListenerEvent) :
    stepsOf i (run ++ more) = stepsOf i run + stepsOf i more :=
  List.countP_append

/-- A step leaves the connections that do not make it, and takes the one that makes it nearer to its
end. -/
theorem exists_conn_step (s : ListenerSettings) {st : Listener} {i n : ℕ} {c : Conn}
    (hc : st.conns[i]? = some c) (hn : c.point.rank ≤ n) (e : ListenerEvent) :
    ∃ c', ((listener s).step st e).1.conns[i]? = some c' ∧ c'.point.rank ≤ n - stepsOf i [e] := by
  obtain ⟨hi, rfl⟩ := List.getElem?_eq_some_iff.mp hc
  cases e with
  | accept https =>
    refine ⟨st.conns[i], ?_, hn⟩
    show (if _ then _ else _ : Listener × Unit).1.conns[i]? = _
    split_ifs
    · exact hc
    · rw [List.getElem?_append_left hi, hc]
  | step j failed =>
    show ∃ c', (match st.conns[j]? with | some c => _ | none => _ : Listener × Unit).1.conns[i]? =
      some c' ∧ _
    by_cases hij : j = i
    · subst hij
      refine ⟨(st.conns[j].step s failed st.active).2, ?_, ?_⟩
      · rw [hc]
        exact List.getElem?_set_self hi
      · have := st.conns[j].rank_step s failed st.active
        have hone : stepsOf j [.step j failed] = 1 := by simp [stepsOf]
        omega
    · have hzero : stepsOf i [.step j failed] = 0 := by simp [stepsOf, hij]
      refine ⟨st.conns[i], ?_, by omega⟩
      cases hcj : st.conns[j]? with
      | none => exact hc
      | some cj =>
        show (st.conns.set j _)[i]? = _
        rw [List.getElem?_set_ne hij, hc]

/-- A run takes a connection nearer to its end by as many calls as it makes in it. -/
theorem exists_conn_run (s : ListenerSettings) {run : List ListenerEvent} {i : ℕ}
    (hi : i < ((listener s).after run).conns.length) (more : List ListenerEvent) :
    ∃ c, ((listener s).after (run ++ more)).conns[i]? = some c ∧
      c.point.rank ≤ 12 - stepsOf i more := by
  induction more using List.reverseRecOn with
  | nil => exact ⟨_, by rw [List.append_nil, List.getElem?_eq_getElem hi], Point.rank_le _⟩
  | append_singleton more e ih =>
    obtain ⟨c, hc, hrank⟩ := ih
    rw [← List.append_assoc, Machine.after_concat]
    obtain ⟨c', hc', hrank'⟩ := exists_conn_step s hc hrank e
    rw [stepsOf_append]
    exact ⟨c', hc', by omega⟩

/-- A connection at its end was unregistered as often as it was registered. -/
theorem Conn.Ok.unregistered_of_rank {c : Conn} (h : c.Ok) (hrank : c.point.rank = 0) :
    c.unregistered = c.registered := by
  rw [h.registered_eq, h.unregistered_eq]
  cases hp : c.point <;> simp_all [Point.rank, Point.notRegistered]

/-- **Connection accounting is exact.** In every reachable state of the listener the counter is the
number of registered connections that are not finished, within its limits; no connection is
registered twice, or unregistered without having been registered or twice; and after at most twelve
calls of its own every connection was unregistered as often as it was registered. -/
theorem connections_accounted (s : ListenerSettings) (run : List ListenerEvent) :
    ((listener s).after run).active = ((listener s).after run).conns.countP Conn.unfinished ∧
    ((listener s).after run).active ≤ max s.maxConnections 0 ∧
    0 ≤ ((listener s).after run).active ∧
    (∀ c ∈ ((listener s).after run).conns, c.registered ≤ 1 ∧ c.unregistered ≤ c.registered ∧
      (c.unregistered = 1 ↔ c.point = .over)) ∧
    ∀ i more, i < ((listener s).after run).conns.length → 12 ≤ stepsOf i more →
      ∃ c, ((listener s).after (run ++ more)).conns[i]? = some c ∧
        c.unregistered = c.registered := by
  have hinv := listenerInv_after s run
  refine ⟨hinv.active_eq, hinv.active_le, ?_, ?_, ?_⟩
  · rw [hinv.active_eq]
    exact Int.natCast_nonneg _
  · intro c hc
    obtain ⟨hr, hu⟩ := hinv.ok c hc
    rw [hr, hu]
    cases hp : c.point <;> simp [Point.notRegistered]
  · intro i more hi hsteps
    obtain ⟨c, hc, hrank⟩ := exists_conn_run s hi more
    have hok := (listenerInv_after s (run ++ more)).ok c (List.mem_of_getElem? hc)
    exact ⟨c, hc, hok.unregistered_of_rank (by omega)⟩

end BoatRudder.WebServer
