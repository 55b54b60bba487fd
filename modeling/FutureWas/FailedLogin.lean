import FutureWas.Authentication

/-!
# Logins that fail

A unit of work gathers the writes of a request and applies them when it commits. The session
is not among them: `accountHandler.Login` stores the new token with `UserSession.Set` as its
last call, and `dispatch` commits and marshals after that. The failures of a login are
therefore of two kinds. One that comes before the new session is stored, or is that of the
store itself, leaves every session alone. One that comes later is a failure of the commit or
of the marshalling; the old session is gone by then and nothing brings it back
(`session_kept_iff`).
-/

set_option autoImplicit false

namespace FutureWas.FailedLogin

open Effect UowM Uow Authentication

/-! ## The sessions a run stores -/

def Silent {W : Type} (tr : List (Event Op.Resp W)) : Prop :=
  ∀ e ∈ tr, issues e.op e.resp = none

section

variable {W : Type} {step : (op : Op) → W → op.Resp → W → Prop} {rely : W → W → Prop}
  {w w' : W} {tr : List (Event Op.Resp W)}

theorem Silent.append {tr₁ tr₂ : List (Event Op.Resp W)} (h₁ : Silent tr₁) (h₂ : Silent tr₂) :
    Silent (tr₁ ++ tr₂) := by
  intro e he
  rcases List.mem_append.mp he with he | he
  · exact h₁ e he
  · exact h₂ e he

def Op.Quiet (op : Op) : Prop := ∀ id token, op ≠ .sessionSet id token

theorem issues_quiet {op : Op} (h : Op.Quiet op) (r : op.Resp) : issues op r = none := by
  cases op with
  | sessionSet id token => exact absurd rfl (h id token)
  | _ => rfl

theorem storage_quiet {op : Op} (h : op.Storage) : Op.Quiet op := by
  rintro id token rfl
  exact h

theorem silent_of_quiet {ε α : Type} {p : Call ε α} {o : Outcome ε α} (hp : p.Uses Op.Quiet)
    (h : Runs step rely p w tr o w') : Silent tr :=
  fun e he => issues_quiet (h.uses hp e he) e.resp

theorem silent_of_storage {α : Type} {m : UowM α} (hm : m.Uses Op.Storage) {u : UnitOfWork}
    {o : Outcome UnitOfWork (Except GoError α × UnitOfWork)}
    (h : Runs step rely (m u) w tr o w') : Silent tr :=
  silent_of_quiet ((hm u).mono fun _ => storage_quiet) h

def StoresLast (tr : List (Event Op.Resp W)) : Prop :=
  ∃ tr₁ e p, tr = tr₁ ++ [e] ∧ Silent tr₁ ∧ issues e.op e.resp = some p

theorem StoresLast.after {tr₁ tr₂ : List (Event Op.Resp W)} (h₂ : StoresLast tr₂)
    (h₁ : Silent tr₁) : StoresLast (tr₁ ++ tr₂) := by
  obtain ⟨init, e, p, rfl, hinit, he⟩ := h₂
  exact ⟨tr₁ ++ init, e, p, by simp, h₁.append hinit, he⟩

theorem userSessionSet_runs {userID : UInt64} {u : UnitOfWork}
    {o : Outcome UnitOfWork (Except GoError String × UnitOfWork)}
    (h : Runs step rely (userSessionSet userID u) w tr o w') :
    (Silent tr ∧ ∃ err, o = .ret (.error err, u)) ∨
      (StoresLast tr ∧ ∃ token, o = .ret (.ok token, u)) := by
  cases h with
  | @call _ _ _ w₁ r w₂ tr _ _ _ _ hrest =>
    cases r with
    | none =>
      cases hrest
      exact Or.inl ⟨by simp [Silent, issues], _, rfl⟩
    | some token =>
      cases hrest with
      | @call _ _ _ w₃ stored w₄ tr _ _ _ _ hrest =>
        cases stored with
        | false =>
          cases hrest
          exact Or.inl ⟨by simp [Silent, issues], _, rfl⟩
        | true =>
          cases hrest
          exact Or.inr ⟨⟨[_], _, _, rfl, by simp [Silent, issues], rfl⟩, token, rfl⟩

theorem attempt_userSessionSet_runs {userID : UInt64} {u : UnitOfWork}
    {o : Outcome UnitOfWork (Except GoError (Except GoError String) × UnitOfWork)}
    (h : Runs step rely (attempt (userSessionSet userID) u) w tr o w') :
    (Silent tr ∧ ∃ err, o = .ret (.ok (.error err), u)) ∨
      (StoresLast tr ∧ ∃ token, o = .ret (.ok (.ok token), u)) := by
  rcases runs_attempt h with ⟨v, -, hset⟩ | ⟨r, v, rfl, hset⟩
  · rcases userSessionSet_runs hset with ⟨-, _, hne⟩ | ⟨-, _, hne⟩ <;> cases hne
  · rcases userSessionSet_runs hset with ⟨hsilent, err, heq⟩ | ⟨hstores, token, heq⟩
    · cases heq
      exact Or.inl ⟨hsilent, err, rfl⟩
    · cases heq
      exact Or.inr ⟨hstores, token, rfl⟩

theorem login_runs {c : Container} {body : Body} {u : UnitOfWork}
    {o : Outcome UnitOfWork (Except GoError Message × UnitOfWork)}
    (h : Runs step rely (login c body u) w tr o w') :
    Silent tr ∨ (StoresLast tr ∧ ∃ m v, o = .ret (.ok m, v)) := by
  cases hbody : body.login with
  | none =>
    simp only [login, hbody] at h
    exact Or.inl (silent_of_storage .throw h)
  | some req =>
    simp only [login, hbody] at h
    split_ifs at h
    · exact Or.inl (silent_of_storage .throw h)
    · rcases runs_bind h with ⟨v, -, hacc⟩ | ⟨err, v, -, hacc⟩ |
        ⟨p, v, w₁, t₁, t₂, rfl, hacc, hrest⟩
      · exact Or.inl (silent_of_storage AccountService.uses_login hacc)
      · exact Or.inl (silent_of_storage AccountService.uses_login hacc)
      · obtain ⟨account, isNew⟩ := p
        have hlogin : Silent t₁ := silent_of_storage AccountService.uses_login hacc
        have hgrants : (grantIfNew c isNew).Uses Op.Storage :=
          uses_grantIfNew.mono fun _ => Op.Loading.storage
        rcases runs_bind hrest with ⟨v', -, hg⟩ | ⟨err, v', -, hg⟩ |
          ⟨⟨⟩, v', w₂, t₃, t₄, rfl, hg, hrest⟩
        · exact Or.inl (hlogin.append (silent_of_storage hgrants hg))
        · exact Or.inl (hlogin.append (silent_of_storage hgrants hg))
        · have hgrant : Silent t₃ := silent_of_storage hgrants hg
          have hbefore := hlogin.append hgrant
          rw [← List.append_assoc]
          have hstage := runs_local rfl hrest
          rcases runs_bind hstage with ⟨_, -, hset⟩ | ⟨_, _, -, hset⟩ |
            ⟨stored, v₃, w₃, t₅, t₆, rfl, hset, hrest⟩
          · rcases attempt_userSessionSet_runs hset with ⟨-, _, hne⟩ | ⟨-, _, hne⟩ <;> cases hne
          · rcases attempt_userSessionSet_runs hset with ⟨-, _, hne⟩ | ⟨-, _, hne⟩ <;> cases hne
          · rcases attempt_userSessionSet_runs hset with ⟨hlast, _, heq⟩ | ⟨hlast, _, heq⟩
            · cases heq
              cases hrest
              rw [List.append_nil]
              exact Or.inl (hbefore.append hlast)
            · cases heq
              cases hrest
              rw [List.append_nil]
              exact Or.inr ⟨hlast.after hbefore, _, _, rfl⟩

/-! ## After the handler -/

def AnswersOK : Outcome UnitOfWork Reply → Prop
  | .raise _ => False
  | .ret reply => reply.response.code = codeOK

/-- The commit failed or unwound, or the response could not be marshalled. -/
def FailsLate : Outcome UnitOfWork Reply → Prop
  | .raise _ => True
  | .ret reply => reply.response.body = .error codeInternalError "commit failed" ∨
      reply.response.body = .error codeInternalError "marshal error"

theorem answer_quiet {op : Op} (h : op.OfAnswer) : Op.Quiet op := by
  rintro id token rfl
  exact h

theorem quiet_refuse {action : UInt32} {code : Int32} {message : String} :
    (refuse action code message).Uses Op.Quiet :=
  uses_refuse.mono fun _ => answer_quiet

theorem finish_answers {s : Server} {action : UInt32} {result : Message} {u : UnitOfWork}
    {o : Outcome UnitOfWork Reply} (h : Runs step rely (finish s action result u) w tr o w') :
    AnswersOK o ∨ FailsLate o := by
  have hreturns : (finish s action result u).Returns fun reply =>
      reply.response.code = codeOK ∨ FailsLate (.ret reply) := by
    have hcommit : (commitOrRollback u).Returns fun _ => True := .of_forall (fun _ => trivial) _
    refine hcommit.bind ?_
    rintro ⟨err | _, u⟩ -
    · exact fun _ => Or.inr (Or.inl rfl)
    · dsimp only
      split
      · exact fun _ => Or.inl rfl
      · exact fun _ => Or.inr (Or.inr rfl)
  cases o with
  | ret reply =>
    rcases h.returns hreturns with hok | hlate
    · exact Or.inl hok
    · exact Or.inr hlate
  | raise u => exact Or.inr trivial

def StoresOnce (tr : List (Event Op.Resp W)) : Prop :=
  ∃ tr₁ e p tr₂, tr = tr₁ ++ e :: tr₂ ∧ Silent tr₁ ∧ Silent tr₂ ∧ issues e.op e.resp = some p

def Orderly (tr : List (Event Op.Resp W)) (o : Outcome UnitOfWork Reply) : Prop :=
  Silent tr ∨ StoresOnce tr ∧ (AnswersOK o ∨ FailsLate o)

theorem Orderly.after {tr₁ tr₂ : List (Event Op.Resp W)} {o : Outcome UnitOfWork Reply}
    (h₂ : Orderly tr₂ o) (h₁ : Silent tr₁) : Orderly (tr₁ ++ tr₂) o := by
  rcases h₂ with hsilent | ⟨⟨init, e, p, rest, rfl, hinit, hrest, he⟩, ho⟩
  · exact Or.inl (h₁.append hsilent)
  · exact Or.inr ⟨⟨tr₁ ++ init, e, p, rest, by simp, h₁.append hinit, hrest, he⟩, ho⟩

theorem Orderly.before {tr₁ tr₂ : List (Event Op.Resp W)} {o : Outcome UnitOfWork Reply}
    (h₁ : Orderly tr₁ o) (h₂ : Silent tr₂) : Orderly (tr₁ ++ tr₂) o := by
  rcases h₁ with hsilent | ⟨⟨init, e, p, rest, rfl, hinit, hrest, he⟩, ho⟩
  · exact Or.inl (hsilent.append h₂)
  · exact Or.inr ⟨⟨init, e, p, rest ++ tr₂, by simp, hinit, hrest.append h₂, he⟩, ho⟩

theorem serve_runs {c : Container} {marshals : Message → Bool} {catalog : Catalog}
    {def_ : ActionDef} {req : GameRequest} (hdef : actionRegistry c req.action = some def_)
    {o : Outcome UnitOfWork Reply}
    (h : Runs step rely (serve (server c marshals) catalog def_ req) w tr o w') :
    Orderly tr o := by
  have hhandler : ∀ {u : UnitOfWork} {w w' : W} {tr : List (Event Op.Resp W)}
      {o : Outcome UnitOfWork (Except GoError Message × UnitOfWork)},
      Runs step rely (def_.handler req.body u) w tr o w' →
      Silent tr ∨ (StoresLast tr ∧ ∃ m v, o = .ret (.ok m, v)) := by
    intro u w w' tr o hrun
    rcases handler_cases hdef with ⟨-, hlog⟩ | ⟨-, hloads⟩
    · subst hlog
      exact login_runs hrun
    · have hstorage := (hloads req.body).mono fun _ => Op.Loading.storage
      exact Or.inl (silent_of_storage hstorage hrun)
  cases h with
  | @call _ _ _ w₁ r w₂ tr _ _ _ _ hrest =>
    have hbody : Orderly tr o := by
      rcases hrest.of_bind with ⟨u, -, hrun⟩ | ⟨⟨result, u⟩, w₃, tr₁, tr₂, rfl, hrun, hafter⟩
      · rcases hhandler hrun with hsilent | ⟨-, _, _, hne⟩
        · exact Or.inl hsilent
        · cases hne
      · cases result with
        | error err =>
          rcases hhandler hrun with hsilent | ⟨-, _, _, hne⟩
          · have hanswer : ∀ code message, ((sendGameError req.action code message).bind fun res =>
                .ret ⟨res, some u⟩ : Call UnitOfWork Reply).Uses Op.Quiet :=
              fun _ _ => (uses_sendGameResponse.mono fun _ => answer_quiet).bind fun _ => trivial
            dsimp only at hafter
            generalize err.asApp.getD (codeInternalError, "handler error") = answer at hafter
            exact Or.inl (hsilent.append (silent_of_quiet (hanswer answer.1 answer.2) hafter))
          · cases hne
        | ok result =>
          have hfinish : Silent tr₂ :=
            silent_of_quiet (uses_finish.mono fun _ => answer_quiet) hafter
          rcases hhandler hrun with hsilent | ⟨⟨init, e, p, rfl, hinit, he⟩, -⟩
          · exact Or.inl (hsilent.append hfinish)
          · exact Or.inr ⟨⟨init, e, p, tr₂, by simp, hinit, hfinish, he⟩, finish_answers hafter⟩
    have hentered : Silent [(⟨.enter req.action req.userId, r, w₁, w₂⟩ : Event Op.Resp W)] := by
      simp [Silent, issues]
    exact hbody.after hentered

theorem dispatch_orderly {c : Container} {marshals : Message → Bool} {store : DesignStore}
    {raw : Raw} {o : Outcome UnitOfWork Reply}
    (h : Runs step rely (dispatch (server c marshals) store raw) w tr o w') : Orderly tr o := by
  have hverify : ∀ {tr : List (Event Op.Resp W)},
      (∀ e ∈ tr, ∃ t, e.op = .sessionVerify raw.userId t) → Silent tr := by
    intro tr hops e he
    obtain ⟨t, ht⟩ := hops e he
    apply issues_quiet
    rw [ht]
    simp [Op.Quiet]
  have hacquire : (acquireUserLock raw.userId : Call UnitOfWork _).Uses Op.Quiet := by
    apply safe_acquireUserLock.uses.mono
    rintro op (rfl | rfl | ⟨t, rfl⟩) <;> simp [Op.Quiet]
  rcases runs_dispatch h with ⟨w₁, tr₁, tr₂, action, code, message, rfl, hops, hrefuse⟩ |
    ⟨req, def_, catalog, w₁, tr₁, tr₂, rfl, hdef, -, rfl, hauth, hbody⟩
  · exact Or.inl ((hverify hops).append (silent_of_quiet quiet_refuse hrefuse))
  · have hchecked : Silent tr₁ := hverify (hauth.safe safe_authenticate).2
    rcases runs_underUserLock hbody with ⟨-, hserve⟩ | ⟨w₂, tr₃, tr₄, rfl, hlock, hbusy⟩ |
      ⟨token, w₂, tr₃, w₃, tr₄, r, before, rfl, hlock, hserve, -, -⟩
    · exact (serve_runs hdef hserve).after hchecked
    · have hlocked : Silent tr₃ := silent_of_quiet hacquire hlock
      exact Or.inl (hchecked.append (hlocked.append (silent_of_quiet quiet_refuse hbusy)))
    · have hlocked : Silent tr₃ := silent_of_quiet hacquire hlock
      have hreleased : Silent [(⟨.lockRelease (.user req.userId) token, r, before, w'⟩ :
          Event Op.Resp W)] := by
        simp [Silent, issues]
      exact (((serve_runs hdef hserve).before hreleased).after hlocked).after hchecked

end

/-! ## The sessions after a request -/

/-- Anything may happen to the services while the request runs, except that another request
stores a session or one expires. -/
def SessionsStay (w w' : World) : Prop := w'.session = w.session

def storedBy (s : UInt64 → Option String) (tr : List (Event Op.Resp World)) :
    UInt64 → Option String :=
  tr.foldl (fun s e => stored s e.op e.resp) s

theorem storedBy_append (s : UInt64 → Option String) (tr₁ tr₂ : List (Event Op.Resp World)) :
    storedBy s (tr₁ ++ tr₂) = storedBy (storedBy s tr₁) tr₂ :=
  List.foldl_append

theorem storedBy_silent (s : UInt64 → Option String) {tr : List (Event Op.Resp World)}
    (h : Silent tr) : storedBy s tr = s := by
  induction tr with
  | nil => rfl
  | cons e tr ih =>
    have he : stored s e.op e.resp = s := by
      simp [stored, h e List.mem_cons_self]
    change storedBy (stored s e.op e.resp) tr = s
    rw [he]
    exact ih fun e' he' => h e' (List.mem_cons_of_mem _ he')

theorem runs_storedBy {ε α : Type} {p : Call ε α} {w w' : World}
    {tr : List (Event Op.Resp World)} {o : Outcome ε α}
    (h : Runs World.Step SessionsStay p w tr o w') : w'.session = storedBy w.session tr := by
  induction h with
  | ret => rfl
  | raise => rfl
  | @call op k w w₁ r w₂ tr o w' hr hs _ ih =>
    change w'.session = storedBy (stored w.session op r) tr
    rw [ih, step_session hs, hr]

/-- The run stores a session of the user that is not the one stored before. -/
def Replaces (u : UInt64) (w : World) (tr : List (Event Op.Resp World)) : Prop :=
  ∃ e ∈ tr, ∃ token, issues e.op e.resp = some (u, token) ∧ w.session u ≠ some token

/-- `VerifyAndRefresh` accepts the token whenever Redis answers. -/
def Passes (w : World) (u : UInt64) (token : String) : Prop :=
  ∀ tr b w', Runs World.Step Eq (verifyAndRefresh u token : Call UnitOfWork (Option Bool)) w tr
    (.ret (some b)) w' → b = true

theorem passes_iff {w : World} {u : UInt64} {token : String} (htoken : token ≠ "") :
    Passes w u token ↔ w.session u = some token := by
  have hverify : (verifyAndRefresh u token : Call UnitOfWork (Option Bool)) =
      .call (.sessionVerify u token) .ret := if_neg htoken
  constructor
  · intro h
    have hrun : Runs World.Step Eq
        (.call (.sessionVerify u token) .ret : Call UnitOfWork (Option Bool)) w
        [⟨.sessionVerify u token, some (decide (w.session u = some token)), w, w⟩]
        (.ret (some (decide (w.session u = some token)))) w := .call rfl ⟨{}, rfl⟩ .ret
    rw [← hverify] at hrun
    exact of_decide_eq_true (h _ _ _ hrun)
  · intro hsession tr b w' hrun
    rw [hverify] at hrun
    cases hrun with
    | call hr hs hret =>
      cases hret
      cases hr
      obtain ⟨c, hc⟩ := hs
      simp only [World.exec, hsession, decide_true] at hc
      split_ifs at hc
      · cases hc
      · cases hc
        rfl

theorem replaces_once {u : UInt64} {w : World} {tr₁ tr₂ : List (Event Op.Resp World)}
    {e : Event Op.Resp World} {p : UInt64 × String} (h₁ : Silent tr₁) (h₂ : Silent tr₂)
    (he : issues e.op e.resp = some p) :
    Replaces u w (tr₁ ++ e :: tr₂) ↔ p.1 = u ∧ w.session u ≠ some p.2 := by
  constructor
  · intro h
    obtain ⟨e', hmem, token, hissue, hne⟩ := h
    rcases List.mem_append.mp hmem with hmem | hmem
    · simp [h₁ e' hmem] at hissue
    · rcases List.mem_cons.mp hmem with rfl | hmem
      · rw [he] at hissue
        cases hissue
        exact ⟨rfl, hne⟩
      · simp [h₂ e' hmem] at hissue
  · intro h
    obtain ⟨rfl, hne⟩ := h
    exact ⟨e, by simp, p.2, he, hne⟩

/-- A request that does not answer code 200 leaves a session as it was exactly when it has not
stored a new one by the time it fails; if it has, its commit or its marshalling failed. -/
theorem session_kept_iff {c : Container} {marshals : Message → Bool} {store : DesignStore}
    {raw : Raw} {w w' : World} {tr : List (Event Op.Resp World)} {o : Outcome UnitOfWork Reply}
    (h : Runs World.Step SessionsStay (dispatch (server c marshals) store raw) w tr o w')
    (hfail : ¬ AnswersOK o) (u : UInt64) :
    (w'.session u = w.session u ↔ ¬ Replaces u w tr) ∧
      (∀ token, token ≠ "" → w.session u = some token →
        (Passes w' u token ↔ ¬ Replaces u w tr)) ∧
      (Replaces u w tr → FailsLate o) := by
  have hsession := runs_storedBy h
  have hkept : (w'.session u = w.session u ↔ ¬ Replaces u w tr) ∧
      (Replaces u w tr → FailsLate o) := by
    rcases dispatch_orderly h with hsilent | ⟨⟨tr₁, e, p, tr₂, rfl, h₁, h₂, he⟩, ho⟩
    · have hnone : ¬ Replaces u w tr := by
        intro hreplaces
        obtain ⟨e, he, token, hissue, -⟩ := hreplaces
        simp [hsilent e he] at hissue
      rw [storedBy_silent _ hsilent] at hsession
      rw [hsession]
      exact ⟨iff_of_true rfl hnone, fun hreplaces => absurd hreplaces hnone⟩
    · have hstored : w'.session = Function.update w.session p.1 (some p.2) := by
        rw [hsession, storedBy_append, storedBy_silent _ h₁]
        change storedBy (stored w.session e.op e.resp) tr₂ = _
        rw [storedBy_silent _ h₂]
        simp [stored, he]
      refine ⟨?_, fun _ => ho.resolve_left hfail⟩
      rw [replaces_once h₁ h₂ he, hstored]
      by_cases hu : p.1 = u
      · subst hu
        simp [eq_comm]
      · simp [hu, Function.update_of_ne (Ne.symm hu)]
  refine ⟨hkept.1, ?_, hkept.2⟩
  intro token htoken hbefore
  rw [passes_iff htoken, ← hkept.1, hbefore]

/-! ## A login whose commit fails -/

def relogin : List (Event Op.Resp World) × Outcome UnitOfWork Reply × World :=
  ((Sample.loginRequest 0 77 "b").program Sample.servers).run World.exec
    (fun k => { fails := decide (k = 8), token := "t" }) 0 Sample.world

theorem runs_relogin : Runs World.Step Eq ((Sample.loginRequest 0 77 "b").program Sample.servers)
    Sample.world relogin.1 relogin.2.1 relogin.2.2 :=
  World.runs _ _ _

theorem session_kept_iff_relogin :
    (relogin.2.2.session 1 = Sample.world.session 1 ↔ ¬ Replaces 1 Sample.world relogin.1) ∧
      (∀ token, token ≠ "" → Sample.world.session 1 = some token →
        (Passes relogin.2.2 1 token ↔ ¬ Replaces 1 Sample.world relogin.1)) ∧
      (Replaces 1 Sample.world relogin.1 → FailsLate relogin.2.1) := by
  have hrun := runs_relogin.mono (fun _ _ _ _ h => h) fun w w' (h : w = w') =>
    (congrArg World.session h).symm
  have hfail : ¬ AnswersOK relogin.2.1 := by
    change ¬ codeInternalError = codeOK
    decide
  exact session_kept_iff hrun hfail 1

/-- The client that holds the session of the account is turned away after a login that
answered 500. -/
theorem session_lost :
    ∃ tr reply w', Runs World.Step Eq
        ((Sample.loginRequest 0 77 "b").program Sample.servers) Sample.world tr (.ret reply) w' ∧
      reply.response.code = codeInternalError ∧
      Passes Sample.world 1 "s" ∧ ¬ Passes w' 1 "s" := by
  refine ⟨_, _, _, runs_relogin, rfl, ?_, ?_⟩
  · rw [passes_iff (by decide)]
    rfl
  · rw [passes_iff (by decide)]
    change ¬ some "t" = some "s"
    decide

end FutureWas.FailedLogin
