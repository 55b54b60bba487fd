import FutureWas.LockFencing

/-!
# Requests whose client disconnects

`dispatch` hands `c.Request().Context()` to the session check and to both lock commands; the
caches, the sessions and the statements run under a context of their own. The request's
context is cancelled when the client disconnects, which can happen before any call, and a
command issued after that is not sent.

The deferred `Release` is the last call of every run that acquired the user lock, whether it
returns or unwinds, and Redis is reachable here; it is issued under the request's context all
the same. `released_iff`: the key no longer holds the token of the run exactly when the
client was still connected at the release, or the key had expired by then.
-/

set_option autoImplicit false

namespace FutureWas.Cancellation

open Effect LockFencing

/-! ## The context of a request -/

/-- The services, and whether the context of the request has been cancelled. -/
structure Scene where
  world : World
  cancelled : Bool

namespace Scene

def answer (c : Choice) (op : Op) (s : Scene) : op.Resp × Scene :=
  ((World.exec c op s.world).1, ⟨(World.exec c op s.world).2, s.cancelled⟩)

def send (c : Choice) (op : Op) (s : Scene) : op.Resp × Scene :=
  answer { c with fails := false } op s

def exec (c : Choice) : (op : Op) → Scene → op.Resp × Scene
  | .sessionVerify id token, s =>
    if s.cancelled then (none, s) else send c (.sessionVerify id token) s
  | .lockAcquire key token, s =>
    if s.cancelled then (.failed, s) else send c (.lockAcquire key token) s
  -- `select` on `ctx.Done()` and the timer; either may be chosen once both are ready
  | .lockWait, s => (s.cancelled && c.cancelled, s)
  | .lockRelease key token, s =>
    if s.cancelled then (false, s) else send c (.lockRelease key token) s
  | op, s => answer c op s

def Step (op : Op) (s : Scene) (r : op.Resp) (s' : Scene) : Prop := ∃ c, exec c op s = (r, s')

inductive Disconnects : Scene → Scene → Prop
  | stays {s} : Disconnects s s
  | leaves {s} : Disconnects s { s with cancelled := true }

/-- Other requests and expiry may do anything to the services; a context that has been
cancelled stays so. -/
def Moves (s s' : Scene) : Prop := s.cancelled = true → s'.cancelled = true

theorem Disconnects.moves {s s' : Scene} (h : Disconnects s s') : Moves s s' := by
  cases h with
  | stays => exact id
  | leaves => exact fun _ => rfl

/-- While the client is connected the services answer as they do to any request. -/
theorem Step.connected {op : Op} {s s' : Scene} {r : op.Resp} (h : Step op s r s')
    (hs : s.cancelled = false) : World.Step op s.world r s'.world ∧ s'.cancelled = false := by
  obtain ⟨c, hc⟩ := h
  cases op with
  | lockWait =>
    simp only [exec, hs, Bool.false_and] at hc
    cases hc
    exact ⟨⟨{}, rfl⟩, hs⟩
  | sessionVerify | lockAcquire | lockRelease =>
    simp only [exec, hs, Bool.false_eq_true, if_false] at hc
    cases hc
    exact ⟨⟨{ c with fails := false }, rfl⟩, hs⟩
  | _ =>
    simp only [exec] at hc
    cases hc
    exact ⟨⟨c, rfl⟩, hs⟩

theorem Step.lockRelease {key : LockKey} {t : String} {r : (Op.lockRelease key t).Resp}
    {s s' : Scene} (h : Step (.lockRelease key t) s r s') :
    s'.world.lock key ≠ some t ↔ s.cancelled = false ∨ s.world.lock key ≠ some t := by
  obtain ⟨c, hc⟩ := h
  simp only [exec] at hc
  cases hcancelled : s.cancelled with
  | true =>
    simp only [hcancelled, if_true] at hc
    cases hc
    simp
  | false =>
    simp only [hcancelled, Bool.false_eq_true, if_false, send, answer, World.exec] at hc
    split_ifs at hc with hheld
    · cases hc
      simp
    · cases hc
      simp [hheld]

end Scene

/-! ## One acquisition -/

section

variable {W : Type} {step : (op : Op) → W → op.Resp → W → Prop} {rely : W → W → Prop}
  {w w' : W} {tr : List (Event Op.Resp W)}

def Took (userID : UInt64) (t : String) (tr : List (Event Op.Resp W)) : Prop :=
  ∃ w w', ⟨.lockAcquire (.user userID) t, .acquired, w, w'⟩ ∈ tr

theorem Took.append {userID : UInt64} {t : String} {tr₁ tr₂ : List (Event Op.Resp W)}
    (h : Took userID t (tr₁ ++ tr₂)) : Took userID t tr₁ ∨ Took userID t tr₂ := by
  obtain ⟨w, w', hmem⟩ := h
  rcases List.mem_append.mp hmem with hmem | hmem
  · exact Or.inl ⟨w, w', hmem⟩
  · exact Or.inr ⟨w, w', hmem⟩

theorem not_took {ε α : Type} {p : Call ε α} {o : Outcome ε α}
    (hp : p.Uses fun op => ∀ key t, op ≠ .lockAcquire key t) (h : Runs step rely p w tr o w')
    (userID : UInt64) (t : String) : ¬ Took userID t tr := by
  intro htook
  obtain ⟨_, _, hmem⟩ := htook
  exact h.uses hp _ hmem _ _ rfl

theorem acquireLoop_took {ε : Type} {userID : UInt64} {token : String} {retries : ℕ}
    {o : Outcome ε (Option String)}
    (h : Runs step rely (acquireLoop (.user userID) token retries) w tr o w') :
    (o = .ret (some token) ∧ ∀ id t, Took id t tr → t = token) ∨
      (o = .ret none ∧ ∀ id t, ¬ Took id t tr) := by
  induction retries generalizing w tr with
  | zero =>
    cases h
    exact Or.inr ⟨rfl, by simp [Took]⟩
  | succ retries ih =>
    cases h with
    | @call _ _ _ w₁ r w₂ tr _ _ _ _ hrest =>
      cases r with
      | acquired =>
        cases hrest
        refine Or.inl ⟨rfl, ?_⟩
        intro id t htook
        obtain ⟨_, _, hmem⟩ := htook
        cases List.mem_singleton.mp hmem
        rfl
      | failed =>
        cases hrest
        exact Or.inr ⟨rfl, by simp [Took]⟩
      | held =>
        cases hrest with
        | @call _ _ _ w₃ cancelled w₄ tr _ _ _ _ hrest =>
          -- neither the refused attempt nor the wait is an acquisition
          have htail : ∀ id t, Took id t (⟨.lockAcquire (.user userID) token, .held, w₁, w₂⟩ ::
              ⟨.lockWait, cancelled, w₃, w₄⟩ :: tr) → Took id t tr := by
            intro id t htook
            obtain ⟨x, y, hmem⟩ := htook
            have hmem := (List.mem_cons.mp hmem).resolve_left (by simp)
            exact ⟨x, y, (List.mem_cons.mp hmem).resolve_left (by simp)⟩
          cases cancelled with
          | true =>
            cases hrest
            exact Or.inr ⟨rfl, fun id t htook => by simpa [Took] using htail id t htook⟩
          | false =>
            rcases ih hrest with ⟨ho, htoken⟩ | ⟨ho, hnone⟩
            · exact Or.inl ⟨ho, fun id t htook => htoken id t (htail id t htook)⟩
            · exact Or.inr ⟨ho, fun id t htook => hnone id t (htail id t htook)⟩

theorem acquireUserLock_took {ε : Type} {userID : UInt64} {o : Outcome ε (Option String)}
    (h : Runs step rely (acquireUserLock userID) w tr o w') :
    (∃ token, o = .ret (some token) ∧ ∀ id t, Took id t tr → t = token) ∨
      (o = .ret none ∧ ∀ id t, ¬ Took id t tr) := by
  cases h with
  | @call _ _ _ w₁ r w₂ tr _ _ _ _ hrest =>
    have htail : ∀ id t, Took id t (⟨.newToken, r, w₁, w₂⟩ :: tr) → Took id t tr := by
      intro id t htook
      obtain ⟨x, y, hmem⟩ := htook
      exact ⟨x, y, (List.mem_cons.mp hmem).resolve_left (by simp)⟩
    cases r with
    | none =>
      cases hrest
      exact Or.inr ⟨rfl, fun id t htook => by simpa [Took] using htail id t htook⟩
    | some token =>
      rcases acquireLoop_took hrest with ⟨ho, htoken⟩ | ⟨ho, hnone⟩
      · exact Or.inl ⟨token, ho, fun id t htook => htoken id t (htail id t htook)⟩
      · exact Or.inr ⟨ho, fun id t htook => hnone id t (htail id t htook)⟩

theorem serve_silent {op : Op} (h : op.OfServe) : ∀ key t, op ≠ .lockAcquire key t := by
  rintro key t rfl
  exact h

def EndsReleasing (step : (op : Op) → W → op.Resp → W → Prop) (userID : UInt64) (t : String)
    (tr : List (Event Op.Resp W)) (w' : W) : Prop :=
  ∃ tr₁ r before, tr = tr₁ ++ [⟨.lockRelease (.user userID) t, r, before, w'⟩] ∧
    step (.lockRelease (.user userID) t) before r w'

theorem EndsReleasing.append {userID : UInt64} {t : String} {tr₁ tr₂ : List (Event Op.Resp W)}
    (h : EndsReleasing step userID t tr₂ w') : EndsReleasing step userID t (tr₁ ++ tr₂) w' := by
  obtain ⟨init, r, before, rfl, hstep⟩ := h
  exact ⟨tr₁ ++ init, r, before, by simp, hstep⟩

theorem refuse_silent {action : UInt32} {code : Int32} {message : String}
    {o : Outcome UnitOfWork Reply} (h : Runs step rely (refuse action code message) w tr o w')
    (id : UInt64) (t : String) : ¬ Took id t tr := by
  have huses : (refuse action code message).Uses fun op => ∀ key t, op ≠ .lockAcquire key t :=
    ⟨by simp, fun _ => trivial⟩
  exact not_took huses h id t

theorem underUserLock_ends {req : GameRequest} {p : Call UnitOfWork Reply}
    (hp : p.Uses Op.OfServe) {o : Outcome UnitOfWork Reply}
    (h : Runs step rely (underUserLock req p) w tr o w') {id : UInt64} {t : String}
    (ht : Took id t tr) : EndsReleasing step req.userId t tr w' := by
  have hquiet : p.Uses fun op => ∀ key t, op ≠ .lockAcquire key t :=
    hp.mono fun _ => serve_silent
  rcases runs_underUserLock h with ⟨-, hbody⟩ | ⟨w₁, tr₁, tr₂, rfl, hlock, hbusy⟩ |
    ⟨token, w₁, tr₁, w₂, tr₂, r, before, rfl, hlock, hbody, -, hstep⟩
  · exact absurd ht (not_took hquiet hbody id t)
  · rcases acquireUserLock_took hlock with ⟨_, ho, -⟩ | ⟨-, hnone⟩
    · cases ho
    · exact absurd ht.append (not_or.mpr ⟨hnone id t, refuse_silent hbusy id t⟩)
  · rcases acquireUserLock_took hlock with ⟨_, ho, htoken⟩ | ⟨ho, -⟩
    · cases ho
      have hends : EndsReleasing step req.userId token
          [⟨.lockRelease (.user req.userId) token, r, before, w'⟩] w' :=
        ⟨[], r, before, rfl, hstep⟩
      rcases ht.append with ht | ht
      · rw [htoken id t ht]
        exact hends.append.append
      · rcases ht.append with ht | ht
        · exact absurd ht (not_took hquiet hbody id t)
        · obtain ⟨_, _, hmem⟩ := ht
          simp at hmem
    · cases ho

theorem dispatch_ends {c : Container} {marshals : Message → Bool} {store : DesignStore} {raw : Raw}
    {o : Outcome UnitOfWork Reply}
    (h : Runs step rely (dispatch (server c marshals) store raw) w tr o w') {id : UInt64}
    {t : String} (ht : Took id t tr) : EndsReleasing step raw.userId t tr w' := by
  have hverify : ∀ {tr : List (Event Op.Resp W)},
      (∀ e ∈ tr, ∃ t, e.op = .sessionVerify raw.userId t) → ¬ Took id t tr := by
    intro tr hops htook
    obtain ⟨_, _, hmem⟩ := htook
    obtain ⟨_, hop⟩ := hops _ hmem
    cases hop
  rcases runs_dispatch h with ⟨w₁, tr₁, tr₂, action, code, message, rfl, hops, hrefuse⟩ |
    ⟨req, def_, catalog, w₁, tr₁, tr₂, rfl, hdef, -, rfl, hauth, hbody⟩
  · exact absurd ht.append (not_or.mpr ⟨hverify hops, refuse_silent hrefuse id t⟩)
  · have hserve : (serve (server c marshals) catalog def_ req).Uses Op.OfServe :=
      uses_serve (actionRegistry_uses hdef req.body).1
    have hchecked := hverify (hauth.safe safe_authenticate).2
    exact (underUserLock_ends hserve hbody (ht.append.resolve_left hchecked)).append

end

/-! ## The lock after the request -/

/-- However the run ends, the key no longer holds its token exactly when the client was still
connected at the release, or the key had expired or changed hands by then. -/
theorem released_iff {c : Container} {marshals : Message → Bool} {store : DesignStore} {raw : Raw}
    {s s' : Scene} {tr : List (Event Op.Resp Scene)} {o : Outcome UnitOfWork Reply} {t : String}
    (h : Runs Scene.Step Scene.Moves (dispatch (server c marshals) store raw) s tr o s')
    (ht : Took raw.userId t tr) :
    ∃ tr₁ r before, tr = tr₁ ++ [⟨.lockRelease (.user raw.userId) t, r, before, s'⟩] ∧
      (s'.world.lock (.user raw.userId) ≠ some t ↔
        before.cancelled = false ∨ before.world.lock (.user raw.userId) ≠ some t) := by
  obtain ⟨tr₁, r, before, htr, hstep⟩ := dispatch_ends h ht
  exact ⟨tr₁, r, before, htr, hstep.lockRelease⟩

/-! ## A client that leaves while its handler runs -/

def shopListRequest : Raw :=
  .envelope ⟨actionGetShopList, 1, "1.00.00", "s", ⟨none, none⟩⟩

def shopList (n : ℕ) : List (Event Op.Resp Scene) × Outcome UnitOfWork Reply × Scene :=
  (dispatch Sample.servers Sample.designStore shopListRequest).runAmong Scene.exec
    (fun k s => if k = n then { s with cancelled := true } else s)
    (fun _ => { token := "t" }) 0 ⟨Sample.world, false⟩

theorem runs_shopList (n : ℕ) :
    Runs Scene.Step Scene.Disconnects
      (dispatch Sample.servers Sample.designStore shopListRequest) ⟨Sample.world, false⟩
      (shopList n).1 (shopList n).2.1 (shopList n).2.2 := by
  apply runs_runAmong
  intro k s
  split_ifs
  · exact .leaves
  · exact .stays

theorem released_iff_shopList :
    ∃ tr₁ r before, (shopList 5).1 =
        tr₁ ++ [⟨.lockRelease (.user 1) "t", r, before, (shopList 5).2.2⟩] ∧
      ((shopList 5).2.2.world.lock (.user 1) ≠ some "t" ↔
        before.cancelled = false ∨ before.world.lock (.user 1) ≠ some "t") := by
  have hrun := (runs_shopList 5).mono (fun _ _ _ _ h => h) fun _ _ => Scene.Disconnects.moves
  have htook : Took shopListRequest.userId "t" (shopList 5).1 :=
    ⟨_, _, List.mem_of_getElem? (i := 2) rfl⟩
  exact released_iff hrun htook

/-- A client that leaves while the handler runs leaves the lock behind, and its request has
succeeded. -/
theorem left_behind :
    ∃ tr reply s', Runs Scene.Step Scene.Disconnects
        (dispatch Sample.servers Sample.designStore shopListRequest) ⟨Sample.world, false⟩ tr
        (.ret reply) s' ∧
      Took 1 "t" tr ∧ reply.response.code = codeOK ∧ s'.world.lock (.user 1) = some "t" :=
  ⟨_, _, _, runs_shopList 5, ⟨_, _, List.mem_of_getElem? (i := 2) rfl⟩, rfl, rfl⟩

end FutureWas.Cancellation
