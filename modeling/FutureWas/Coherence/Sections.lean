import FutureWas.Coherence.Beside
import FutureWas.Effect.Sections
import FutureWas.LockFencing

/-!
# The requests of one user among all others

Any requests on any number of servers, interleaved call by call. While the user lock does not
expire and nobody logs the user in, the requests of the user that got the lock are served one
after another, in the order in which they got it: `user_serial`. What the others do in between
spares the user. So the user's cached fields are still the rows once nobody holds the lock:
`user_in_step`.
-/

set_option autoImplicit false

namespace FutureWas.Coherence

open Effect
open LockFencing (Phase phase allows next)

/-! ## The lock as a gate -/

/-- The answer of Redis that hands the lock done, and the release. -/
def userGate (uid : UInt64) : Gate Op.Resp String where
  enters
    | .lockAcquire _ t, .acquired => some t
    | _, _ => none
  exits
    | .lockRelease _ _ => true
    | _ => false
  exit t := .lockRelease (.user uid) t
  exits_exit _ := rfl
  enters_exit _ _ := rfl

/-- What a request runs under the lock, and all of a request that is refused before. -/
def Incoming.served (s : Server) (r : Incoming) : Call UnitOfWork Reply :=
  match r.raw with
  | .envelope req =>
    match s.actionRegistry req.action, r.designStore.getByClientVersion req.clientVersion with
    | some def_, some catalog => serve s catalog def_ req
    | _, _ => r.program s
  | _ => r.program s

def stageOf : Phase → Stage String
  | .lockFree | .outside | .issued _ => .before
  | .holding t => .inside t
  | .left => .done

section

variable {uid : UInt64} {c : Container} {marshals : Message → Bool}

theorem enters_of_ne {op : Op} {r : op.Resp} (h : ∀ key t, op ≠ .lockAcquire key t) :
    (userGate uid).enters op r = none := by
  cases op with
  | lockAcquire key t => exact absurd rfl (h key t)
  | _ => rfl

theorem next_stageOf {s : Phase} {op : Op} (r : op.Resp) (h : allows uid s op) :
    (userGate uid).next (stageOf s) op r = stageOf (next s op r) := by
  cases s with
  | lockFree =>
    have hnone : (userGate uid).enters op r = none := enters_of_ne h.1
    have hsame : next .lockFree op r = .lockFree := by cases op <;> rfl
    rw [hsame]
    simp only [stageOf, Gate.next, hnone]
  | outside =>
    rcases h with rfl | rfl | ⟨id, t, rfl⟩
    · cases r <;> rfl
    · rfl
    · rfl
  | issued t =>
    rcases h with rfl | rfl | rfl
    · cases r <;> rfl
    · rfl
    · rfl
  | holding t => cases op <;> rfl
  | left => exact h.elim

theorem refuse_guards {body : Call UnitOfWork Reply} {action : UInt32} {code : Int32}
    {message : String} : (userGate uid).Guards Op.Still body (refuse action code message) :=
  ⟨trivial, fun _ => trivial⟩

theorem acquireLoop_guards {body : Call UnitOfWork Reply} {action : UInt32} (t : String)
    (retries : ℕ) :
    (userGate uid).Guards Op.Still body
      ((acquireLoop (.user uid) t retries : Call UnitOfWork (Option String)).bind fun
        | none => refuse action codeBusy "busy, retry later"
        | some token => body.ensure (releaseUserLock uid token)) := by
  induction retries with
  | zero => exact refuse_guards
  | succ retries ih =>
    refine ⟨trivial, ?_⟩
    rintro (_ | _ | _)
    · rfl
    · refine ⟨trivial, ?_⟩
      rintro (_ | _)
      · exact ih
      · exact refuse_guards
    · exact refuse_guards

theorem underUserLock_guards {req : GameRequest} (hid : req.userId = uid) (hne : uid ≠ 0)
    {body : Call UnitOfWork Reply} :
    (userGate uid).Guards Op.Still body (underUserLock req body) := by
  subst hid
  unfold underUserLock
  rw [if_neg hne]
  refine ⟨trivial, ?_⟩
  rintro (_ | t)
  · exact refuse_guards
  · exact acquireLoop_guards t userLockMaxRetries

/-- Until it holds the lock a request changes nothing, and then it is served and releases it. -/
theorem program_guards {r : Incoming} (hid : r.raw.userId = uid) (hne : uid ≠ 0) (s : Server) :
    (userGate uid).Guards Op.Still (Incoming.served s r) (r.program s) := by
  obtain ⟨store, raw⟩ := r
  cases raw with
  | unreadable => exact refuse_guards
  | malformed => exact refuse_guards
  | envelope req =>
    simp only [Incoming.served, Incoming.program, dispatch]
    cases s.actionRegistry req.action with
    | none => exact refuse_guards
    | some def_ =>
      cases store.getByClientVersion req.clientVersion with
      | none => exact refuse_guards
      | some catalog =>
        refine Gate.Guards.of_safe_bind (safe_authenticate.mono ?_) ?_
        · rintro op ⟨t, rfl⟩
          exact ⟨trivial, fun _ => rfl⟩
        · rintro (_ | refusal)
          · exact underUserLock_guards hid hne
          · exact refuse_guards

theorem served_uses (r : Incoming) :
    (Incoming.served (server c marshals) r).Uses Op.OfServe := by
  obtain ⟨store, raw⟩ := r
  have hrefuse : ∀ action code message,
      (refuse action code message : Call UnitOfWork Reply).Uses Op.OfServe :=
    fun _ _ _ => ⟨trivial, fun _ => trivial⟩
  cases raw with
  | unreadable => exact hrefuse _ _ _
  | malformed => exact hrefuse _ _ _
  | envelope req =>
    simp only [Incoming.served, Incoming.program, dispatch, server]
    cases hdef : actionRegistry c req.action with
    | none => exact hrefuse _ _ _
    | some def_ =>
      cases store.getByClientVersion req.clientVersion with
      | none => exact hrefuse _ _ _
      | some catalog => exact uses_serve (actionRegistry_uses hdef req.body).1

end

/-! ## Runs -/

section

variable {ι : Type} [DecidableEq ι] {c : Container} {uid : UInt64} {marshals : Message → Bool}
  {requests : ι → Incoming} {w : World} {tr : List (Occurrence ι Op.Resp World)}
  {cfg : Config ι Op.Resp UnitOfWork Reply World}

def served (uid : UInt64) (requests : ι → Incoming) (tr : List (Occurrence ι Op.Resp World)) :
    List ι :=
  (userGate uid).entered (fun i => Mine uid (requests i)) tr

/-- Rows are only added, and those of the user, with the cached fields that have not expired,
stay as they are. -/
def Spares (c : Container) (uid : UInt64) (w w' : World) : Prop :=
  (exclusive c uid true).rely w.data w'.data

def LockKept (uid : UInt64) (tr : List (Occurrence ι Op.Resp World)) : Prop :=
  ∀ w w', .env w w' ∈ tr → w'.lock (.user uid) = w.lock (.user uid)

def Released (uid : UInt64) (requests : ι → Incoming) (tr : List (Occurrence ι Op.Resp World)) :
    Prop :=
  ∀ i, Mine uid (requests i) → ∀ t, phase uid i tr ≠ .holding t

abbrev ServedAs (c : Container) (marshals : Message → Bool) (uid : UInt64)
    (requests : ι → Incoming) (tr : List (Occurrence ι Op.Resp World))
    (cfg : Config ι Op.Resp UnitOfWork Reply World) :
    ι → Episode Op.Resp UnitOfWork Reply World → Prop :=
  Ran (userGate uid) (fun i => Mine uid (requests i))
    (fun i => Incoming.served (server c marshals) (requests i)) tr cfg

theorem stage_eq (h : Exec World.Step World.Expires (arrived (server c marshals) requests w) tr cfg)
    {i : ι} (hid : (requests i).raw.userId = uid) (hne : uid ≠ 0) :
    (userGate uid).stage i tr = stageOf (phase uid i tr) := by
  induction tr using List.reverseRecOn generalizing cfg with
  | nil =>
    have hstart : phase uid i [] = LockFencing.start uid := rfl
    rw [hstart, LockFencing.start, if_neg hne]
    rfl
  | append_singleton tr o ih =>
    cases o with
    | env w w' =>
      obtain ⟨cfg₁, h₁, -⟩ := h.last_env
      rw [Gate.stage_env, LockFencing.phase_env]
      exact ih h₁
    | act j e =>
      obtain ⟨cfg₁, k, h₁, -⟩ := h.last_act
      by_cases hj : j = i
      · subst hj
        have hallow := LockFencing.allowed h
        rw [hid] at hallow
        rw [Gate.stage_act_self, LockFencing.phase_act_self, ih h₁]
        exact next_stageOf e.resp hallow
      · rw [Gate.stage_act_ne hj, LockFencing.phase_act_ne uid hj]
        exact ih h₁

theorem one_inside (h : Exec World.Step World.Expires (arrived (server c marshals) requests w)
    tr cfg) (hne : uid ≠ 0) (hkept : LockKept uid tr) {i j : ι} {t t' : String}
    (hi : Mine uid (requests i)) (hj : Mine uid (requests j))
    (hti : (userGate uid).stage i tr = .inside t) (htj : (userGate uid).stage j tr = .inside t') :
    i = j := by
  have hholds : ∀ {i t}, Mine uid (requests i) → (userGate uid).stage i tr = .inside t →
      phase uid i tr = .holding t := by
    intro i t hi ht
    rw [stage_eq h hi.2 hne] at ht
    cases hphase : phase uid i tr <;> rw [hphase] at ht <;> cases ht
    rfl
  have hlock : ∀ {i t}, Mine uid (requests i) → (userGate uid).stage i tr = .inside t →
      cfg.world.lock (.user uid) = some t := by
    intro i t hi ht
    have hkept' : ∀ w w', .env w w' ∈ tr →
        w'.lock (.user (requests i).raw.userId) = w.lock (.user (requests i).raw.userId) := by
      rw [hi.2]
      exact hkept
    have hstart : ∀ cfg', Exec World.Step World.Expires (arrived (server c marshals) requests w)
        [] cfg' → phase (requests i).raw.userId i [] = .holding t →
        cfg'.world.lock (.user (requests i).raw.userId) = some t := by
      intro cfg' _ hphase
      have hnot : LockFencing.start (requests i).raw.userId ≠ .holding t := by
        unfold LockFencing.start
        split_ifs <;> simp
      exact absurd hphase hnot
    have hrun : Exec World.Step World.Expires (arrived (server c marshals) requests w) ([] ++ tr)
        cfg := h
    have hheld := LockFencing.held_of_holding hrun hkept' hstart (by rw [hi.2]; exact hholds hi ht)
    rwa [hi.2] at hheld
  have hsame : t = t' := Option.some.inj ((hlock hi hti).symm.trans (hlock hj htj))
  subst hsame
  exact LockFencing.tokens_injective (LockFencing.tokens_fresh h).1
    (LockFencing.mem_tokens_of_phase tr (Or.inr (hholds hi hti)))
    (LockFencing.mem_tokens_of_phase tr (Or.inr (hholds hj htj)))

theorem userGate_ruled :
    (userGate uid).Ruled Op.OfServe Op.Still World.Step (Spares c uid) where
  refl w := (exclusive c uid true).rely_refl w.data
  trans h h' := (exclusive c uid true).rely_trans h h'
  still op w r w' hop hs := by
    have hsame : w'.data = w.data := hop.unchanged hs.data
    unfold Spares
    rw [hsame]
    exact (exclusive c uid true).rely_refl w.data
  exit _ := trivial
  inner op hop := by
    refine ⟨?_, fun r => ?_⟩
    · cases op <;> first | rfl | exact hop.elim
    · cases op <;> first | rfl | exact hop.elim

theorem serial_episodes (hw : w.data.Sound c) (hacc : w.data.HasAccount c uid)
    (hchannels : ∀ i ch, (requests i).raw.channel = some ch → ¬ w.data.Owns c ch uid)
    (h : Exec World.Step World.Expires (arrived (server c marshals) requests w) tr cfg)
    (hkept : LockKept uid tr) (hreleased : Released uid requests tr) :
    (served uid requests tr).Nodup ∧ ∃ episodes,
      List.Forall₂ (ServedAs c marshals uid requests tr cfg) (served uid requests tr) episodes ∧
        Series World.Step (Spares c uid) w episodes cfg.world ∧
        ∀ p ∈ episodes, ∀ e ∈ p.events, ∃ i, Mine uid (requests i) ∧ .act i e ∈ tr := by
  have hne : uid ≠ 0 := hw.ne_zero hacc
  have hserial := h.serial userGate_ruled
    (fun i hi => program_guards hi.2 hne (server c marshals)) (fun i _ => served_uses (requests i))
    (fun w w' hexpires => (Fades.of_expires hexpires).rely uid true)
    (fun i e he hi => run_apart hw hacc hchannels h he hi) ?_ ?_
  · obtain ⟨hnodup, episodes, hserved, hseries⟩ := hserial
    refine ⟨hnodup, episodes, hserved, hseries, ?_⟩
    intro p hp e he
    obtain ⟨i, hi⟩ := exists_of_forall₂_mem hserved.flip hp
    exact ⟨i, hi.mine, mem_own.mp (hi.events.subset he)⟩
  · intro t₁ t₂ ht i j t t' hi hj hti htj
    subst ht
    obtain ⟨cfg₁, h₁, -⟩ := h.split
    exact one_inside h₁ hne (fun w w' hm => hkept w w' (List.mem_append_left _ hm)) hi hj hti htj
  · intro i hi t ht
    rw [stage_eq h hi.2 hne] at ht
    cases hphase : phase uid i tr <;> rw [hphase] at ht <;> cases ht
    exact hreleased i hi t hphase

/-- The requests of a user that got the lock have been served one after another, and all the
other calls of the run spared the user. -/
theorem user_serial (hw : w.data.Sound c) (hacc : w.data.HasAccount c uid)
    (hchannels : ∀ i ch, (requests i).raw.channel = some ch → ¬ w.data.Owns c ch uid)
    (h : Exec World.Step World.Expires (arrived (server c marshals) requests w) tr cfg)
    (hkept : LockKept uid tr) (hreleased : Released uid requests tr) :
    (served uid requests tr).Nodup ∧ ∃ episodes,
      List.Forall₂ (ServedAs c marshals uid requests tr cfg) (served uid requests tr) episodes ∧
        Series World.Step (Spares c uid) w episodes cfg.world := by
  obtain ⟨hnodup, episodes, hserved, hseries, -⟩ :=
    serial_episodes hw hacc hchannels h hkept hreleased
  exact ⟨hnodup, episodes, hserved, hseries⟩

theorem user_data_serial (hw : w.data.Sound c) (hacc : w.data.HasAccount c uid)
    (hchannels : ∀ i ch, (requests i).raw.channel = some ch → ¬ w.data.Owns c ch uid)
    (h : Exec World.Step World.Expires (arrived (server c marshals) requests w) tr cfg)
    (hkept : LockKept uid tr) (hreleased : Released uid requests tr)
    (hcalm : ∀ i e, Mine uid (requests i) → .act i e ∈ tr → Calm e.op e.resp) :
    (served uid requests tr).Nodup ∧ ∃ episodes,
      List.Forall₂ (ServedAs c marshals uid requests tr cfg) (served uid requests tr) episodes ∧
        Series (exclusive c uid true).step (exclusive c uid true).rely w.data
          (episodes.map (Episode.map World.data)) cfg.world.data := by
  obtain ⟨hnodup, episodes, hserved, hseries, hevents⟩ :=
    serial_episodes hw hacc hchannels h hkept hreleased
  refine ⟨hnodup, episodes, hserved, ?_⟩
  refine hseries.project (fun _ _ _ _ hs hc => ⟨hs.data, hc⟩) (fun _ _ hr => hr) ?_
  intro p hp e he
  obtain ⟨i, hmine, hmem⟩ := hevents p hp e he
  exact hcalm i e hmine hmem

theorem served_clean {r : Incoming} (hr : Mine uid r) {d : Data} (h : Clean c uid d) :
    (exclusive c uid true).wp (Incoming.served (server c marshals) r)
      (fun _ d' => Clean c uid d') d := by
  obtain ⟨store, raw⟩ := r
  cases raw with
  | unreadable => exact respond_clean h
  | malformed => exact respond_clean h
  | envelope req =>
    simp only [Incoming.served, Incoming.program, dispatch, server]
    cases hdef : actionRegistry c req.action with
    | none => exact respond_clean h
    | some def_ =>
      cases store.getByClientVersion req.clientVersion with
      | none => exact respond_clean h
      | some catalog =>
        have hauth : def_.noAuth = false := by
          rw [Bool.eq_false_iff]
          exact fun hno => hr.1 ((noAuth_iff hdef).mp hno)
        exact serve_clean hr.2 (composed_handler hdef hauth req.body) h

/-- The cached fields of the user are the rows whenever no request of the user holds the lock,
if they were before the run. -/
theorem user_in_step (hw : Clean c uid w.data) (hacc : w.data.HasAccount c uid)
    (hchannels : ∀ i ch, (requests i).raw.channel = some ch → ¬ w.data.Owns c ch uid)
    (h : Exec World.Step World.Expires (arrived (server c marshals) requests w) tr cfg)
    (hkept : LockKept uid tr) (hreleased : Released uid requests tr)
    (hcalm : ∀ i e, Mine uid (requests i) → .act i e ∈ tr → Calm e.op e.resp) :
    Clean c uid cfg.world.data := by
  obtain ⟨-, episodes, hserved, hdata⟩ :=
    user_data_serial hw.sound hacc hchannels h hkept hreleased hcalm
  refine Series.keeps (fun _ _ hr hc => hc.rely hr) hdata ?_ hw
  intro p hp d hd
  obtain ⟨p₀, hp₀, rfl⟩ := List.mem_map.mp hp
  obtain ⟨i, hi⟩ := exists_of_forall₂_mem hserved.flip hp₀
  rw [Episode.map, hi.program]
  exact served_clean hi.mine hd

end

/-! ## Two upgrades at a time -/

section

def crowd : List (Move Bool Choice World) :=
  [.act false {}, .act true {}, .act false { token := "a" }, .act true { token := "b" },
    .act false {}, .act true {}, .act true {}, .act false {}, .act false {}, .act true {},
    .act true {}] ++ List.replicate 10 (.act false {}) ++ List.replicate 8 (.act true {})

def crowded : List (Occurrence Bool Op.Resp World) × Config Bool Op.Resp UnitOfWork Reply World :=
  play World.exec crowd LockFencing.initial

theorem exec_crowded : Exec World.Step World.Expires
    (arrived Sample.servers LockFencing.upgrades Sample.world) crowded.1 crowded.2 :=
  exec_play _ (by simp [crowd]) _

theorem lockKept_crowded : LockKept 1 crowded.1 := by
  intro w w' hm
  obtain ⟨f, hf, -⟩ := env_of_mem_play hm
  exact absurd hf (by simp [crowd])

theorem released_crowded : Released 1 LockFencing.upgrades crowded.1 := by
  intro i _ t hphase
  have hleft : (match phase 1 i crowded.1 with
      | .left => true
      | _ => false) = true := by cases i <;> decide +kernel
  rw [hphase] at hleft
  cases hleft

theorem calm_crowded (i : Bool) (e : Event Op.Resp World) (_ : Mine 1 (LockFencing.upgrades i))
    (he : .act i e ∈ crowded.1) : Calm e.op e.resp := by
  have hcalm : ∀ i, ∀ e ∈ own i crowded.1, Calm e.op e.resp := by decide +kernel
  exact hcalm i e (mem_own.mpr he)

theorem hasAccount_world : Sample.world.data.HasAccount Sample.container 1 :=
  ⟨Sample.account, List.mem_singleton.mpr rfl, rfl⟩

theorem user_serial_crowded : served 1 LockFencing.upgrades crowded.1 = [false, true] ∧
    ∃ episodes, List.Forall₂ (ServedAs Sample.container (fun _ => true) 1 LockFencing.upgrades
        crowded.1 crowded.2) [false, true] episodes ∧
      Series World.Step (Spares Sample.container 1) Sample.world episodes crowded.2.world := by
  have horder : served 1 LockFencing.upgrades crowded.1 = [false, true] := by decide +kernel
  refine ⟨horder, ?_⟩
  rw [← horder]
  exact (user_serial Isolation.sound_world hasAccount_world (fun _ _ hch => by cases hch)
    exec_crowded lockKept_crowded released_crowded).2

theorem user_in_step_crowded :
    Clean Sample.container 1 crowded.2.world.data ∧
      ((crowded.2.world.data.cache .user 1 .cards).map fun v => v.rows.map Card.level) =
        some [3] := by
  exact ⟨user_in_step (inStep_world.clean 1) hasAccount_world (fun _ _ hch => by cases hch)
    exec_crowded lockKept_crowded released_crowded calm_crowded, by decide +kernel⟩

end

end FutureWas.Coherence
