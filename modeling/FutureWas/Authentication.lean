import FutureWas.Isolation

/-!
# Authentication

A handler that needs a session is entered only after the session store held, under the user
of the envelope, exactly the token of the request. What the store holds under a user is the
token of the last `Login` that stored one there (`stored_issue`), and a `Login` stores tokens
only under the account of the channel it was given.
-/

set_option autoImplicit false

namespace FutureWas.Authentication

open Effect UowM Uow Isolation

/-! ## One request -/

def verifies (u : UInt64) (token : String) : (op : Op) → op.Resp → Bool
  | .sessionVerify u' token', ok => u' = u ∧ token' = token ∧ ok = some true
  | _, _ => false

/-- Handlers that need a session are entered once their session has been verified. -/
def Checked (c : Container) (raw : Raw) (verified : Bool) : Op → Prop
  | .enter action u => ∃ req, raw = .envelope req ∧ action = req.action ∧ u = req.userId ∧
      ∀ def_, actionRegistry c action = some def_ → def_.noAuth = false →
        verified = true ∧ u ≠ 0 ∧ req.sessionToken ≠ ""
  | _ => True

def authMonitor (c : Container) (raw : Raw) : Monitor Op.Resp where
  State := Bool
  allows := Checked c raw
  next s op r := s || match raw with
    | .envelope req => verifies req.userId req.sessionToken op r
    | _ => false

/-- Calls that neither verify a session nor enter a handler. -/
def Op.Aside : Op → Prop
  | .enter _ _ | .sessionVerify _ _ => False
  | _ => True

section

variable {c : Container} {raw : Raw} {α : Type}

theorem aside_wp {p : Call UnitOfWork α} (hp : p.Uses Op.Aside) (s : Bool) :
    (authMonitor c raw).setting.wp p (fun _ s' => s' = s) s := by
  refine Monitor.wp_of_uses (m := authMonitor c raw) ?_ ?_ hp
  · intro op hop
    cases op <;> trivial
  · intro op r hop
    cases raw <;> cases op <;> first | exact Bool.or_false s | exact hop.elim

theorem aside_ofReply {op : Op} (h : op.OfReply) : Op.Aside op := by
  cases op <;> trivial

theorem aside_refuse {action : UInt32} {code : Int32} {message : String} :
    (refuse action code message).Uses Op.Aside :=
  ⟨trivial, fun _ => trivial⟩

theorem aside_acquireUserLock {userID : UInt64} :
    (acquireUserLock userID : Call UnitOfWork (Option String)).Uses Op.Aside := by
  apply safe_acquireUserLock.uses.mono
  intro op h
  rcases h with rfl | rfl | ⟨t, rfl⟩ <;> trivial

variable {marshals : Message → Bool} {def_ : ActionDef} {req : GameRequest}

theorem authenticate_checks :
    (authMonitor c (.envelope req)).setting.wp
      (authenticate def_ req : Call UnitOfWork (Option (Int32 × String)))
      (fun o s => o = .ret none → def_.noAuth = false →
        s = true ∧ req.userId ≠ 0 ∧ req.sessionToken ≠ "") false := by
  unfold authenticate
  by_cases hauth : def_.noAuth = true
  · rw [if_pos hauth]
    intro _ hfalse
    rw [hauth] at hfalse
    cases hfalse
  · rw [if_neg hauth]
    by_cases hmissing : req.userId = 0 ∨ req.sessionToken = ""
    · rw [if_pos hmissing]
      intro hnone
      cases hnone
    · rw [if_neg hmissing]
      have hpresent := not_or.mp hmissing
      unfold verifyAndRefresh
      rw [if_neg hpresent.2]
      refine Monitor.wp_call.mpr ⟨trivial, fun ok => ?_⟩
      rcases ok with _ | _ | _
      · intro hnone
        cases hnone
      · intro hnone
        cases hnone
      · intro _ _
        exact ⟨by simp [authMonitor, verifies], hpresent⟩

theorem serve_checks {catalog : Catalog} (hdef : actionRegistry c req.action = some def_) {s : Bool}
    (hs : def_.noAuth = false → s = true ∧ req.userId ≠ 0 ∧ req.sessionToken ≠ "") :
    (authMonitor c (.envelope req)).setting.wp (serve (server c marshals) catalog def_ req)
      (fun _ _ => True) s := by
  have huses := (actionRegistry_uses hdef req.body).1
  obtain ⟨k, hserve, hk⟩ := @serve_enters (server c marshals) catalog def_ req huses
  rw [hserve]
  refine Monitor.wp_call.mpr ⟨⟨req, rfl, rfl, rfl, ?_⟩, fun r => ?_⟩
  · intro def' hdef' hauth
    rw [hdef] at hdef'
    cases hdef'
    exact hs hauth
  · exact Setting.wp_mono (fun _ _ _ => trivial)
      (aside_wp ((hk r).mono fun _ => aside_ofReply) _)

theorem dispatch_checks (r : Incoming) :
    (authMonitor c r.raw).setting.wp (r.program (server c marshals)) (fun _ _ => True) false := by
  obtain ⟨store, raw⟩ := r
  have hrefuse : ∀ raw s action code message, (authMonitor c raw).setting.wp
      (refuse action code message) (fun _ _ => True) s := fun raw s action code message =>
    Setting.wp_mono (fun _ _ _ => trivial) (aside_wp aside_refuse s)
  cases raw with
  | unreadable => exact hrefuse _ _ _ _ _
  | malformed => exact hrefuse _ _ _ _ _
  | envelope req =>
    simp only [Incoming.program, dispatch]
    cases hdef : (server c marshals).actionRegistry req.action with
    | none => exact hrefuse _ _ _ _ _
    | some def_ =>
      cases store.getByClientVersion req.clientVersion with
      | none => exact hrefuse _ _ _ _ _
      | some catalog =>
        refine Setting.wp_bind (Setting.wp_mono ?_ authenticate_checks)
        rintro (refusal | u) s hs
        · cases refusal with
          | some refusal => exact hrefuse _ _ _ _ _
          | none =>
            have hserve : ∀ s, (def_.noAuth = false →
                s = true ∧ req.userId ≠ 0 ∧ req.sessionToken ≠ "") →
                (authMonitor c (.envelope req)).setting.wp
                  (serve (server c marshals) catalog def_ req) (fun _ _ => True) s :=
              fun s hs => serve_checks hdef hs
            unfold underUserLock
            split_ifs
            · exact hserve s (hs rfl)
            · refine Setting.wp_bind (Setting.wp_mono ?_ (aside_wp aside_acquireUserLock s))
              rintro (token | u) s' rfl
              · cases token with
                | none => exact hrefuse _ _ _ _ _
                | some token =>
                  refine Setting.wp_ensure (Setting.wp_mono ?_ (hserve s' (hs rfl)))
                  intro o s₂ _
                  refine Monitor.wp_call.mpr ⟨trivial, fun _ => ?_⟩
                  cases o with
                  | ret rep => trivial
                  | raise u => trivial
              · trivial
        · trivial

end

/-! ## Sessions along a run -/

section

variable {ι : Type}

def issues : (op : Op) → op.Resp → Option (UInt64 × String)
  | .sessionSet u token, stored => if stored then some (u, token) else none
  | _, _ => none

/-- A session store after a call, expiry apart. -/
def stored (s : UInt64 → Option String) (op : Op) (r : op.Resp) : UInt64 → Option String :=
  match issues op r with
  | some (u, token) => Function.update s u (some token)
  | none => s

def latest (s : UInt64 → Option String) (tr : List (Occurrence ι Op.Resp World)) :
    UInt64 → Option String :=
  tr.foldl (fun s o => match o with
    | .act _ e => stored s e.op e.resp
    | .env _ _ => s) s

theorem latest_append (s : UInt64 → Option String) (t₁ t₂ : List (Occurrence ι Op.Resp World)) :
    latest s (t₁ ++ t₂) = latest (latest s t₁) t₂ := by
  simp [latest]

theorem step_session {op : Op} {w w' : World} {r : op.Resp} (h : World.Step op w r w') :
    w'.session = stored w.session op r := by
  by_cases hop : op.Control
  · cases op with
    | sessionSet u token =>
      rcases h.sessionSet with ⟨rfl, rfl⟩ | ⟨rfl, rfl⟩ <;> rfl
    | lockAcquire key token =>
      rcases h.lockAcquire with ⟨-, rfl⟩ | ⟨-, -, rfl⟩ <;> rfl
    | lockRelease key token =>
      rcases h.lockRelease with rfl | ⟨-, rfl⟩ <;> rfl
    | newToken =>
      rcases h.newToken with ⟨-, rfl⟩ | ⟨token, -, -, -, rfl⟩ <;> rfl
    | _ => exact hop.elim
  · have hsame := (h.frame hop).1
    cases op with
    | sessionSet => exact absurd trivial hop
    | _ => exact hsame

theorem stored_apply (s s' : UInt64 → Option String) (op : Op) (r : op.Resp) {u : UInt64}
    (h : s u = none ∨ s u = s' u) :
    stored s op r u = none ∨ stored s op r u = stored s' op r u := by
  unfold stored
  cases issues op r with
  | none => exact h
  | some p =>
    by_cases hu : u = p.1
    · subst hu
      exact Or.inr (by simp)
    · simpa [Function.update_of_ne hu] using h

theorem latest_issue (s : UInt64 → Option String) (tr : List (Occurrence ι Op.Resp World))
    {u : UInt64} {token : String} (h : latest s tr u = some token) :
    (s u = some token ∧ ∀ j e t, .act j e ∈ tr → issues e.op e.resp ≠ some (u, t)) ∨
    ∃ t₁ j e t₂, tr = t₁ ++ .act j e :: t₂ ∧ issues e.op e.resp = some (u, token) ∧
      ∀ j' e' t, .act j' e' ∈ t₂ → issues e'.op e'.resp ≠ some (u, t) := by
  induction tr using List.reverseRecOn with
  | nil => exact Or.inl ⟨h, by simp⟩
  | append_singleton tr o ih =>
    rw [latest_append] at h
    cases o with
    | env w w' =>
      rcases ih h with ⟨hs, hnone⟩ | ⟨t₁, j, e, t₂, rfl, he, hnone⟩
      · exact Or.inl ⟨hs, by simpa using hnone⟩
      · exact Or.inr ⟨t₁, j, e, t₂ ++ [.env w w'], by simp, he, by simpa using hnone⟩
    | act i e =>
      by_cases hissue : ∃ t, issues e.op e.resp = some (u, t)
      · obtain ⟨t, ht⟩ := hissue
        have htoken : t = token := by simpa [latest, stored, ht] using h
        subst htoken
        exact Or.inr ⟨tr, i, e, [], rfl, ht, by simp⟩
      · have hother : ∀ t, issues e.op e.resp ≠ some (u, t) := not_exists.mp hissue
        have hkeep : latest s tr u = some token := by
          rw [← h]
          simp only [latest, List.foldl_cons, List.foldl_nil, stored]
          cases hp : issues e.op e.resp with
          | none => rfl
          | some p =>
            have hu : u ≠ p.1 := by
              rintro rfl
              exact hother p.2 hp
            simp [Function.update_of_ne hu]
        rcases ih hkeep with ⟨hs, hnone⟩ | ⟨t₁, j, e', t₂, rfl, he', hnone⟩
        · refine Or.inl ⟨hs, fun j e' t hm => ?_⟩
          rcases List.mem_append.mp hm with hm | hm
          · exact hnone j e' t hm
          · cases List.mem_singleton.mp hm
            exact hother t
        · refine Or.inr ⟨t₁, j, e', t₂ ++ [.act i e], by simp, he', fun j' e'' t hm => ?_⟩
          rcases List.mem_append.mp hm with hm | hm
          · exact hnone j' e'' t hm
          · cases List.mem_singleton.mp hm
            exact hother t

variable [DecidableEq ι] {c₀ cfg : Config ι Op.Resp UnitOfWork Reply World}
  {tr : List (Occurrence ι Op.Resp World)}

theorem session_latest (h : Exec World.Step World.Expires c₀ tr cfg) (u : UInt64) :
    cfg.world.session u = none ∨ cfg.world.session u = latest c₀.world.session tr u := by
  induction h with
  | start => exact Or.inr rfl
  | @act tr cfg i op k r w' _ _ hs ih =>
    rw [latest_append, step_session hs]
    exact stored_apply _ _ op r ih
  | @env tr cfg w' _ he ih =>
    rw [latest_append]
    cases he with
    | cache o id => exact ih
    | lock key => exact ih
    | session id =>
      by_cases hu : u = id
      · subst hu
        exact Or.inl (by simp)
      · change Function.update cfg.world.session id none u = none ∨
          Function.update cfg.world.session id none u = latest c₀.world.session tr u
        rw [Function.update_of_ne hu]
        exact ih

def verified (c : Container) (raw : Raw) (i : ι) (tr : List (Occurrence ι Op.Resp World)) : Bool :=
  (authMonitor c raw).after i false tr

variable {c : Container} {req : GameRequest} {i : ι}

theorem verified_act_self (e : Event Op.Resp World) :
    verified c (.envelope req) i (tr ++ [.act i e]) =
      (verified c (.envelope req) i tr || verifies req.userId req.sessionToken e.op e.resp) :=
  Monitor.after_act_self i _ tr e

theorem verified_act_ne {j : ι} (h : j ≠ i) (e : Event Op.Resp World) :
    verified c (.envelope req) i (tr ++ [.act j e]) = verified c (.envelope req) i tr :=
  Monitor.after_act_ne h _ tr e

theorem verified_env (w w' : World) :
    verified c (.envelope req) i (tr ++ [.env w w']) = verified c (.envelope req) i tr :=
  Monitor.after_env i _ tr w w'

theorem verifies_of_verified (h : verified c (.envelope req) i tr = true) :
    ∃ t₁ e t₂, tr = t₁ ++ .act i e :: t₂ ∧
      verifies req.userId req.sessionToken e.op e.resp = true := by
  induction tr using List.reverseRecOn with
  | nil => cases h
  | append_singleton tr o ih =>
    have later : verified c (.envelope req) i tr = true →
        ∃ t₁ e t₂, tr ++ [o] = t₁ ++ .act i e :: t₂ ∧
          verifies req.userId req.sessionToken e.op e.resp = true := by
      intro hbefore
      obtain ⟨t₁, e, t₂, rfl, he⟩ := ih hbefore
      exact ⟨t₁, e, t₂ ++ [o], by simp, he⟩
    cases o with
    | env w w' =>
      rw [verified_env] at h
      exact later h
    | act j e =>
      by_cases hj : j = i
      · subst hj
        rw [verified_act_self] at h
        rcases Bool.or_eq_true_iff.mp h with hbefore | hnow
        · exact later hbefore
        · exact ⟨tr, e, [], rfl, hnow⟩
      · rw [verified_act_ne hj] at h
        exact later h

end

/-! ## The property -/

section

variable {ι : Type} [DecidableEq ι] {c : Container} {marshals : Message → Bool}
  {requests : ι → Incoming} {w : World} {tr : List (Occurrence ι Op.Resp World)}
  {cfg : Config ι Op.Resp UnitOfWork Reply World}

theorem issued_by_login (hw : w.data.Sound c)
    (h : Exec World.Step World.Expires (arrived (server c marshals) requests w) tr cfg) {j : ι}
    {e : Event Op.Resp World} (he : .act j e ∈ tr) {u : UInt64} {token : String}
    (hissue : issues e.op e.resp = some (u, token)) :
    ∃ ch, (requests j).raw.channel = some ch ∧ e.before.data.Owns c ch u := by
  have hpre := ((run_settles hw h).2 j e he).1
  obtain ⟨op, r, before, after⟩ := e
  cases op with
  | sessionSet id t =>
    simp only [issues] at hissue
    split_ifs at hissue
    cases hissue
    exact hpre
  | _ => cases hissue

/-- Whenever a handler that needs a session is entered, its user is that of the envelope and
not 0, and earlier in the run the session store held under the user exactly the request's
token, which is not empty; the last call before that to store a token under the user stored
this one, and it was a `Login` of the user's channel (or none has stored one since the start
and the store held the token then). No `Login` ever stores a token under a user other than
that of the account of its channel. -/
theorem authenticated (hw : w.data.Sound c)
    (h : Exec World.Step World.Expires (arrived (server c marshals) requests w) tr cfg) :
    (∀ i t₁ t₂ e action u def_, tr = t₁ ++ .act i e :: t₂ → e.op = .enter action u →
      actionRegistry c action = some def_ → def_.noAuth = false →
        u ≠ 0 ∧ ∃ req, (requests i).raw = .envelope req ∧ u = req.userId ∧ req.sessionToken ≠ "" ∧
          ∃ t₃ v t₄, t₁ = t₃ ++ .act i v :: t₄ ∧ v.before.session u = some req.sessionToken ∧
            ((∃ t₅ j l t₆ ch, t₃ = t₅ ++ .act j l :: t₆ ∧
                issues l.op l.resp = some (u, req.sessionToken) ∧
                (∀ j' l' t, .act j' l' ∈ t₆ → issues l'.op l'.resp ≠ some (u, t)) ∧
                (requests j).raw.channel = some ch ∧ l.before.data.Owns c ch u) ∨
              (w.session u = some req.sessionToken ∧
                ∀ j l t, .act j l ∈ t₃ → issues l.op l.resp ≠ some (u, t)))) ∧
    ∀ j e u token, .act j e ∈ tr → issues e.op e.resp = some (u, token) →
      ∃ ch, (requests j).raw.channel = some ch ∧ e.before.data.Owns c ch u := by
  refine ⟨?_, fun j e u token he hissue => issued_by_login hw h he hissue⟩
  intro i t₁ t₂ e action u def_ ht hop hdef hauth
  have hchecked := (Exec.monitored (dispatch_checks (requests i)) h).2 t₁ e t₂ ht
  rw [hop] at hchecked
  obtain ⟨req, hraw, rfl, rfl, hcond⟩ := hchecked
  obtain ⟨hverified, hzero, htoken⟩ := hcond def_ hdef hauth
  have hverified : verified c (.envelope req) i t₁ = true := by
    rw [← hraw]
    exact hverified
  obtain ⟨t₃, v, t₄, rfl, hv⟩ := verifies_of_verified hverified
  refine ⟨hzero, req, hraw, rfl, htoken, t₃, v, t₄, rfl, ?_⟩
  -- the run up to the verification
  subst ht
  rw [List.append_assoc] at h
  obtain ⟨c₁, h₁, h₂⟩ := h.split
  obtain ⟨k, -, hbefore, hstep, -⟩ := h₂.head_act
  have hheld : v.before.session req.userId = some req.sessionToken := by
    obtain ⟨op, r, before, after⟩ := v
    cases op with
    | sessionVerify u' token' =>
      obtain ⟨rfl, rfl, rfl⟩ : u' = req.userId ∧ token' = req.sessionToken ∧ r = some true := by
        simpa [verifies] using hv
      exact hstep.sessionVerify.2 rfl
    | _ => cases hv
  refine ⟨hheld, ?_⟩
  have hlatest : latest w.session t₃ req.userId = some req.sessionToken := by
    rcases session_latest h₁ req.userId with hnone | hsame
    · rw [hbefore, hheld] at hnone
      cases hnone
    · rw [hbefore, hheld] at hsame
      exact hsame.symm
  rcases latest_issue w.session t₃ hlatest with hstart | ⟨t₅, j, l, t₆, rfl, hl, hnone⟩
  · exact Or.inr hstart
  · have hmem : .act j l ∈ t₅ ++ .act j l :: t₆ := by simp
    obtain ⟨ch, hch, howns⟩ := issued_by_login hw h₁ hmem hl
    exact Or.inl ⟨t₅, j, l, t₆, ch, rfl, hl, hnone, hch, howns⟩

end

def visits : Bool → Incoming
  | false => Sample.loginRequest 0 77 "b"
  | true => Sample.upgradeRequest 1 "t" 5

def visit : List (Occurrence Bool Op.Resp World) × Config Bool Op.Resp UnitOfWork Reply World :=
  play World.exec
    (List.replicate 14 (.act false { token := "t" }) ++
      .act true {} :: .act true { token := "l" } :: List.replicate 12 (.act true {}))
    (arrived Sample.servers visits Sample.world)

theorem exec_visit : Exec World.Step World.Expires (arrived Sample.servers visits Sample.world)
    visit.1 visit.2 :=
  exec_play _ (by simp) _

theorem authenticated_visit :
    ∃ t₁ e t₂, visit.1 = t₁ ++ .act true e :: t₂ ∧ e.op = .enter actionUpgradeCardLevel 1 ∧
      ∃ t₃ v t₄, t₁ = t₃ ++ .act true v :: t₄ ∧ v.before.session 1 = some "t" := by
  have hsplit : visit.1 = visit.1.take 14 ++ .act true ⟨.enter actionUpgradeCardLevel 1, (),
      _, _⟩ :: visit.1.drop 15 := rfl
  obtain ⟨-, req, hraw, -, -, t₃, v, t₄, ht, hv, -⟩ := (authenticated sound_world exec_visit).1
    true _ _ _ _ _ _ hsplit rfl rfl rfl
  cases hraw
  exact ⟨_, _, _, hsplit, rfl, t₃, v, t₄, ht, hv⟩

end FutureWas.Authentication
