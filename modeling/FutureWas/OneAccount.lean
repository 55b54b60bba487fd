import FutureWas.Isolation

/-!
# One active account for each channel

`AccountService.Login` looks for the active account of a channel and inserts one if there is
none: two statements with no lock around them (the user id that `dispatch` would lock is not
known yet) and no unique index behind them. An insertion makes a second active account of
its channel exactly when another request has inserted one since the lookup, so a run keeps
one active account for each channel exactly when no first-time login is disturbed between
the two statements (`one_active_iff`).
-/

set_option autoImplicit false

namespace FutureWas.OneAccount

open Effect UowM Uow Isolation

/-! ## The account table -/

def Apart (a a' : Account) : Prop :=
  ¬ (a.channelUID = a'.channelUID ∧ 0 < a.isActive ∧ 0 < a'.isActive)

instance : Std.Symm Apart where
  symm _ _ h h' := h ⟨h'.1.symm, h'.2.2, h'.2.1⟩

/-- `TB_ACCOUNT` has at most one row with `is_active > 0` for each `channel_uid`. -/
def OneActive (c : Container) (d : Data) : Prop := ((d.db c.gameDB) .account).Pairwise Apart

instance (a a' : Account) : Decidable (Apart a a') := inferInstanceAs (Decidable (¬ _))

instance (c : Container) (d : Data) : Decidable (OneActive c d) :=
  inferInstanceAs (Decidable (List.Pairwise Apart _))

def Free (c : Container) (d : Data) (channel : UInt64) : Prop := ∀ uid, ¬ d.Owns c channel uid

section

variable {c : Container} {d d' : Data} {channel uid uid' : UInt64}

theorem oneActive_iff : OneActive c d ↔ (d.accounts c).Pairwise Apart := by
  unfold OneActive Data.accounts
  rw [List.pairwise_map]
  rfl

theorem free_iff : Free c d channel ↔
    ∀ a ∈ d.accounts c, Account.channelUID a = channel → ¬ 0 < Account.isActive a := by
  constructor
  · intro h a ha hch hactive
    obtain ⟨row, hrow, rfl⟩ := List.mem_map.mp ha
    exact h (Account.userID row) ⟨row, hrow, rfl, hch, hactive⟩
  · intro h uid howns
    obtain ⟨a, ha, -, hch, hactive⟩ := howns
    exact h (Row.static a) (List.mem_map_of_mem ha) hch hactive

theorem oneActive_congr (h : d'.accounts c = d.accounts c) :
    OneActive c d' ↔ OneActive c d := by
  rw [oneActive_iff, oneActive_iff, h]

theorem free_congr (h : d'.accounts c = d.accounts c) :
    Free c d' channel ↔ Free c d channel := by
  rw [free_iff, free_iff, h]

theorem oneActive_insert {a : Row .account} (h : d'.accounts c = d.accounts c ++ [a])
    (hactive : 0 < Account.isActive a) :
    OneActive c d' ↔ OneActive c d ∧ Free c d (Account.channelUID a) := by
  rw [oneActive_iff, oneActive_iff, free_iff, h, List.pairwise_append]
  have hlast : ∀ b ∈ d.accounts c, (∀ b' ∈ [a], Apart b b') ↔
      (Account.channelUID b = Account.channelUID a → ¬ 0 < Account.isActive b) := by
    intro b _
    constructor
    · intro hb hch hb'
      exact hb a (List.mem_singleton.mpr rfl) ⟨hch, hb', hactive⟩
    · intro hb b' hmem hboth
      rw [List.mem_singleton.mp hmem] at hboth
      exact hb hboth.1 hboth.2.1
  constructor
  · intro hall
    exact ⟨hall.1, fun b hb => (hlast b hb).mp (hall.2.2 b hb)⟩
  · intro hall
    exact ⟨hall.1, List.pairwise_singleton _ _, fun b hb => (hlast b hb).mpr (hall.2 b hb)⟩

theorem free_insert {a : Row .account} (h : d'.accounts c = d.accounts c ++ [a])
    (hother : Account.channelUID a ≠ channel) : Free c d channel → Free c d' channel := by
  rw [free_iff, free_iff, h]
  intro hfree b hb hch
  rcases List.mem_append.mp hb with hb | hb
  · exact hfree b hb hch
  · rw [List.mem_singleton.mp hb] at hch
    exact absurd hch hother

theorem not_free_insert {a : Row .account} (h : d'.accounts c = d.accounts c ++ [a])
    (hactive : 0 < Account.isActive a) : ¬ Free c d' (Account.channelUID a) := by
  rw [free_iff, h]
  intro hfree
  exact hfree a (List.mem_append_right _ (List.mem_singleton.mpr rfl)) rfl hactive

theorem owner_unique (h : OneActive c d) (hu : d.Owns c channel uid)
    (hu' : d.Owns c channel uid') : uid = uid' := by
  obtain ⟨a, ha, rfl, hch, hactive⟩ := hu
  obtain ⟨a', ha', rfl, hch', hactive'⟩ := hu'
  by_contra hne
  have hdistinct : a ≠ a' := by
    intro heq
    exact hne (congrArg Account.userID heq)
  have hapart := h.forall ha ha' hdistinct
  exact hapart ⟨hch.trans hch'.symm, hactive, hactive'⟩

theorem Free.of_grows (hfree : Free c d' channel) (h : d.Grows d') : Free c d channel :=
  fun uid howns => hfree uid (h.owns howns)

theorem oneActive_of_grows (h : d.Grows d') (hone : OneActive c d') : OneActive c d := by
  rw [oneActive_iff] at hone ⊢
  exact hone.sublist (h c.gameDB .account).sublist

theorem free_of_findUserID (h : (d.db c.gameDB).findUserID channel = none) :
    Free c d channel := by
  intro uid howns
  obtain ⟨a, ha, -, hch, hactive⟩ := howns
  have hnone := List.find?_eq_none.mp (Option.map_eq_none_iff.mp h) a ha
  exact hnone (decide_eq_true ⟨hch, hactive⟩)

end

/-! ## Lookups and insertions -/

def Inserts (channel : UInt64) (e : Event Op.Resp World) : Prop :=
  ∃ db m k w w', e = ⟨.create db .account m, some k, w, w'⟩ ∧ Account.channelUID m = channel

theorem Inserts.unique {channel channel' : UInt64} {e : Event Op.Resp World}
    (h : Inserts channel e) (h' : Inserts channel' e) : channel = channel' := by
  obtain ⟨db, m, k, _, _, rfl, rfl⟩ := h
  obtain ⟨_, _, _, _, _, heq, rfl⟩ := h'
  cases heq
  rfl

def Misses (c : Container) (channel : UInt64) (e : Event Op.Resp World) : Prop :=
  ∃ w w', e = ⟨.findUserID c.gameDB channel, some none, w, w'⟩

def lookupMonitor (c : Container) : Monitor Op.Resp where
  State := Option UInt64
  allows
    | s, .create _ .account m => s = some (Account.channelUID m)
    | _, _ => True
  next
    | _, .findUserID db channel, some none => if db = c.gameDB then some channel else none
    | _, .findUserID _ _, _ => none
    | s, _, _ => s

def Op.Elsewhere : Op → Prop
  | .findUserID _ _ | .create _ _ _ => False
  | _ => True

section

variable {c : Container} {marshals : Message → Bool} {α : Type}

theorem elsewhere_wp {p : Call UnitOfWork α} (hp : p.Uses Op.Elsewhere) (s : Option UInt64) :
    (lookupMonitor c).setting.wp p (fun _ s' => s' = s) s := by
  have hallows : ∀ op, Op.Elsewhere op → (lookupMonitor c).allows s op := by
    intro op hop
    cases op <;> trivial
  have hnext : ∀ op r, Op.Elsewhere op → (lookupMonitor c).next s op r = s := by
    intro op r hop
    cases op <;> first | rfl | exact hop.elim
  exact Monitor.wp_of_uses hallows hnext hp

theorem elsewhere_of_loading {op : Op} (h : op.Loading) : Op.Elsewhere op := by
  cases op <;> trivial

theorem elsewhere_of_answer {op : Op} (h : op.OfAnswer) : Op.Elsewhere op := by
  cases op <;> trivial

def Follows (c : Container) (m : UowM α) (u : UnitOfWork) (s : Option UInt64) : Prop :=
  UowM.wp (lookupMonitor c).setting m (fun _ _ _ => True) (fun _ _ => True) u s

theorem follows_elsewhere {m : UowM α} (hm : m.Uses Op.Elsewhere) {u : UnitOfWork}
    {s : Option UInt64} : Follows c m u s := by
  refine Setting.wp_mono ?_ (elsewhere_wp (hm u) s)
  intro o s' _
  cases o with
  | ret p => trivial
  | raise u => trivial

theorem follows_seq {β : Type} {m : UowM β} {f : β → UowM α} (hm : m.Uses Op.Elsewhere)
    {u : UnitOfWork} {s : Option UInt64} (hf : ∀ b u, Follows c (f b) u s) :
    Follows c (m >>= f) u s := by
  refine wp_bind (Setting.wp_mono ?_ (elsewhere_wp (hm u) s))
  intro o s' hs'
  subst hs'
  cases o with
  | ret p =>
    obtain ⟨r, u'⟩ := p
    cases r with
    | error err => trivial
    | ok b => exact hf b u'
  | raise u' => trivial

theorem follows_bind {β : Type} {m : UowM β} {f : β → UowM α} {u : UnitOfWork}
    {s : Option UInt64} (hm : Follows c m u s) (hf : ∀ b, (f b).Uses Op.Elsewhere) :
    Follows c (m >>= f) u s := by
  refine wp_bind (UowM.wp_mono ?_ (fun _ _ h => h) hm)
  intro r u' s' _
  cases r with
  | error err => trivial
  | ok b => exact follows_elsewhere (hf b)

theorem AccountService.login_follows {channel : UInt64} {deviceID : String} {u : UnitOfWork}
    {s : Option UInt64} : Follows c (AccountService.login c channel deviceID) u s := by
  have hload : ∀ op : Op, op.Loading → Op.Elsewhere op := fun _ => elsewhere_of_loading
  refine wp_bind (Monitor.wp_call.mpr ⟨trivial, fun found => ?_⟩)
  cases found with
  | none => trivial
  | some found =>
    refine follows_seq (uses_clockNow.mono hload) fun now u₁ => ?_
    cases found with
    | none =>
      refine follows_seq (uses_pickShard fun _ => trivial) fun shardID u₂ => ?_
      let m : Account := ⟨0, channel, deviceID, 1, shardID, now, now⟩
      let u₃ : UnitOfWork := { u₂ with heap := (u₂.heap.alloc .account m).1 }
      have hnew : new .account m u₂ = .ret (.ok u₂.heap.next, u₃) := rfl
      have hmodel : model .account u₂.heap.next u₃ = .ret (.ok m, u₃) := by
        simp [model, u₃]
      have hmissed : (lookupMonitor c).next s (.findUserID c.gameDB channel) (some none) =
          some channel := if_pos rfl
      refine wp_local hnew (wp_bind (wp_local rfl (wp_local hmodel ?_)))
      refine wp_bind (Monitor.wp_call.mpr ⟨hmissed, fun id => ?_⟩)
      cases id with
      | none => trivial
      | some id => trivial
    | some userID =>
      exact follows_elsewhere (.bind .modify fun _ =>
        .bind (uses_account.loading.mono hload) fun _ => .bind .modify fun _ =>
          .bind (uses_update.loading.mono hload) fun _ => .ret)

theorem login_follows {body : Body} {u : UnitOfWork} {s : Option UInt64} :
    Follows c (login c body) u s := by
  unfold login
  cases body.login with
  | none => trivial
  | some req =>
    dsimp only
    split_ifs
    · trivial
    · refine follows_bind AccountService.login_follows fun p => ?_
      have hset : ∀ userID, (userSessionSet userID).Uses Op.Elsewhere := by
        intro userID
        apply uses_userSessionSet.mono
        rintro op (rfl | ⟨t, rfl⟩) <;> trivial
      refine .bind (uses_grantIfNew.mono fun _ => elsewhere_of_loading) fun _ =>
        .bind (fun _ => trivial) fun m => .bind (.attempt (hset _)) fun token => ?_
      cases token with
      | error err => exact .throw
      | ok token => exact .ret

theorem serve_follows {catalog : Catalog} {def_ : ActionDef} {req : GameRequest}
    (hdef : actionRegistry c req.action = some def_) {s : Option UInt64} :
    (lookupMonitor c).setting.wp (serve (server c marshals) catalog def_ req)
      (fun _ _ => True) s := by
  have hhandler : ∀ u s, Follows c (def_.handler req.body) u s := by
    intro u s
    rcases handler_cases hdef with ⟨-, rfl⟩ | ⟨-, hloads⟩
    · exact login_follows
    · exact follows_elsewhere ((hloads req.body).mono fun _ => elsewhere_of_loading)
  refine Monitor.wp_call.mpr ⟨trivial, fun _ => Setting.wp_bind (Setting.wp_mono ?_ (hhandler _ _))⟩
  rintro (⟨err | result, u⟩ | u) s' -
  · have hanswer : ∀ code message, ((sendGameError req.action code message).bind fun res =>
        .ret ⟨res, some u⟩ : Call UnitOfWork Reply).Uses Op.Elsewhere :=
      fun _ _ => (uses_sendGameResponse.mono fun _ => elsewhere_of_answer).bind fun _ => trivial
    exact Setting.wp_mono (fun _ _ _ => trivial) (elsewhere_wp (hanswer _ _) s')
  · have hfinish : (finish (server c marshals) req.action result u).Uses Op.Elsewhere :=
      uses_finish.mono fun _ => elsewhere_of_answer
    exact Setting.wp_mono (fun _ _ _ => trivial) (elsewhere_wp hfinish s')
  · trivial

theorem dispatch_follows (r : Incoming) :
    (lookupMonitor c).setting.wp (r.program (server c marshals)) (fun _ _ => True) none := by
  obtain ⟨store, raw⟩ := r
  have hrefuse : ∀ action code message s, (lookupMonitor c).setting.wp
      (refuse action code message) (fun _ _ => True) s := by
    intro action code message s
    have huses : (refuse action code message).Uses Op.Elsewhere :=
      uses_refuse.mono fun _ => elsewhere_of_answer
    exact Setting.wp_mono (fun _ _ _ => trivial) (elsewhere_wp huses s)
  cases raw with
  | unreadable => exact hrefuse _ _ _ _
  | malformed => exact hrefuse _ _ _ _
  | envelope req =>
    simp only [Incoming.program, dispatch]
    cases hdef : (server c marshals).actionRegistry req.action with
    | none => exact hrefuse _ _ _ _
    | some def_ =>
      cases store.getByClientVersion req.clientVersion with
      | none => exact hrefuse _ _ _ _
      | some catalog =>
        have hverify : (authenticate def_ req : Call UnitOfWork _).Uses Op.Elsewhere := by
          apply safe_authenticate.uses.mono
          rintro op ⟨t, rfl⟩
          trivial
        have hacquire : (acquireUserLock req.userId : Call UnitOfWork _).Uses Op.Elsewhere := by
          apply safe_acquireUserLock.uses.mono
          rintro op (rfl | rfl | ⟨t, rfl⟩) <;> trivial
        refine Setting.wp_bind (Setting.wp_mono ?_ (elsewhere_wp hverify none))
        rintro (refusal | u) s -
        · cases refusal with
          | some refusal => exact hrefuse _ _ _ _
          | none =>
            unfold underUserLock
            split_ifs
            · exact serve_follows hdef
            · refine Setting.wp_bind (Setting.wp_mono ?_ (elsewhere_wp hacquire s))
              rintro (token | u) s₁ -
              · cases token with
                | none => exact hrefuse _ _ _ _
                | some token =>
                  refine Setting.wp_ensure (Setting.wp_mono ?_ (serve_follows hdef))
                  intro o s₂ _
                  refine Monitor.wp_call.mpr ⟨trivial, fun _ => ?_⟩
                  cases o <;> trivial
              · trivial
        · trivial

end

/-! ## Runs -/

section

variable {ι : Type} [DecidableEq ι] {c : Container} {marshals : Message → Bool}
  {requests : ι → Incoming} {w : World} {tr : List (Occurrence ι Op.Resp World)}
  {cfg : Config ι Op.Resp UnitOfWork Reply World} {channel : UInt64}

/-- No other request inserts an account of the channel between a lookup that misses it and
the insertion that follows. -/
def Undisturbed (c : Container) (tr : List (Occurrence ι Op.Resp World)) : Prop :=
  ∀ t₁ i look t₂ ins t₃ channel, tr = t₁ ++ .act i look :: (t₂ ++ .act i ins :: t₃) →
    Misses c channel look → Inserts channel ins → ∀ j e, .act j e ∈ t₂ → ¬ Inserts channel e

omit [DecidableEq ι] in
theorem Undisturbed.before {t₁ t₂ : List (Occurrence ι Op.Resp World)}
    (h : Undisturbed c (t₁ ++ t₂)) : Undisturbed c t₁ := by
  intro u₁ i look u₂ ins u₃ channel ht
  subst ht
  exact h u₁ i look u₂ ins (u₃ ++ t₂) channel (by simp)

theorem accounts_of_act (hw : w.data.Sound c)
    (h : Exec World.Step World.Expires (arrived (server c marshals) requests w) tr cfg) {i : ι}
    {e : Event Op.Resp World} (he : .act i e ∈ tr) :
    (e.after.data.accounts c = e.before.data.accounts c ∧ ∀ channel, ¬ Inserts channel e) ∨
      ∃ a : Row .account, Inserts (Account.channelUID a) e ∧ 0 < Account.isActive a ∧
        e.after.data.accounts c = e.before.data.accounts c ++ [a] := by
  obtain ⟨hpre, -, -, hsame⟩ := (run_settles hw h).2 i e he
  have hstep := (h.step_of_mem he).data
  obtain ⟨op, r, b, a⟩ := e
  by_cases hcreate : ∃ db m, op = .create db .account m
  · obtain ⟨db, m, rfl⟩ := hcreate
    obtain ⟨rfl, -, hactive⟩ := hpre
    rcases hstep with ⟨hr, hdata⟩ | ⟨k, -, hr, hdata⟩
    · left
      refine ⟨?_, ?_⟩
      · dsimp only at hdata ⊢
        rw [hdata]
      · intro channel hins
        obtain ⟨_, _, _, _, _, heq, -⟩ := hins
        cases heq
        cases hr
    · right
      refine ⟨Row.static (Row.setPrimaryKey (e := .account) k m), ?_, hactive, ?_⟩
      · dsimp only at hr
        subst hr
        exact ⟨_, m, k, b, a, rfl, rfl⟩
      · dsimp only at hdata ⊢
        rw [hdata]
        unfold Data.accounts
        rw [Data.setDb_db_self, Tables.insert_self, List.map_append]
        rfl
  · left
    refine ⟨hsame fun db m hop => hcreate ⟨db, m, hop⟩, ?_⟩
    intro channel hins
    obtain ⟨db, m, k, _, _, heq, -⟩ := hins
    cases heq
    exact hcreate ⟨db, m, rfl⟩

theorem accounts_of_expiry {w w' : World} (h : World.Expires w w') :
    w'.data.accounts c = w.data.accounts c := by
  cases h <;> rfl

def missed (c : Container) (i : ι) (tr : List (Occurrence ι Op.Resp World)) : Option UInt64 :=
  (lookupMonitor c).after i none tr

theorem missed_act_self (i : ι) (tr : List (Occurrence ι Op.Resp World)) (e : Event Op.Resp World) :
    missed c i (tr ++ [.act i e]) = (lookupMonitor c).next (missed c i tr) e.op e.resp :=
  Monitor.after_act_self i _ tr e

theorem missed_act_ne {i j : ι} (h : j ≠ i) (tr : List (Occurrence ι Op.Resp World))
    (e : Event Op.Resp World) : missed c i (tr ++ [.act j e]) = missed c i tr :=
  Monitor.after_act_ne h _ tr e

theorem missed_env (i : ι) (tr : List (Occurrence ι Op.Resp World)) (w w' : World) :
    missed c i (tr ++ [.env w w']) = missed c i tr :=
  Monitor.after_env i _ tr w w'

theorem looked_of_missed {i : ι} (h : missed c i tr = some channel) :
    ∃ t₁ look t₂, tr = t₁ ++ .act i look :: t₂ ∧ Misses c channel look := by
  induction tr using List.reverseRecOn with
  | nil => cases h
  | append_singleton tr o ih =>
    have later : missed c i tr = some channel →
        ∃ t₁ look t₂, tr ++ [o] = t₁ ++ .act i look :: t₂ ∧ Misses c channel look := by
      intro hbefore
      obtain ⟨t₁, look, t₂, rfl, hlook⟩ := ih hbefore
      exact ⟨t₁, look, t₂ ++ [o], by simp, hlook⟩
    cases o with
    | env w w' =>
      rw [missed_env] at h
      exact later h
    | act j e =>
      by_cases hj : j = i
      · subst hj
        rw [missed_act_self] at h
        obtain ⟨op, r, b, a⟩ := e
        cases op with
        | findUserID db ch =>
          rcases r with _ | _ | id
          · cases h
          · by_cases hdb : db = c.gameDB
            · subst hdb
              have hch : ch = channel := by
                simpa [lookupMonitor] using h
              subst hch
              exact ⟨tr, _, [], rfl, b, a, rfl⟩
            · simp [lookupMonitor, hdb] at h
          · cases h
        | _ => exact later h
      · rw [missed_act_ne hj] at h
        exact later h

theorem looked_of_inserts {i : ι} {e : Event Op.Resp World}
    {before after : List (Occurrence ι Op.Resp World)}
    (h : Exec World.Step World.Expires (arrived (server c marshals) requests w)
      (before ++ .act i e :: after) cfg) (he : Inserts channel e) :
    ∃ t₁ look t₂, before = t₁ ++ .act i look :: t₂ ∧ Misses c channel look := by
  have hfollows := (Exec.monitored (dispatch_follows (requests i)) h).2 before e after rfl
  obtain ⟨db, m, k, _, _, rfl, hch⟩ := he
  apply looked_of_missed (i := i)
  rw [← hch]
  exact hfollows

theorem free_of_quiet (hw : w.data.Sound c) {t₁ t₂ : List (Occurrence ι Op.Resp World)}
    {cfg₁ : Config ι Op.Resp UnitOfWork Reply World}
    (h : Exec World.Step World.Expires (arrived (server c marshals) requests w) (t₁ ++ t₂) cfg)
    (h₂ : Exec World.Step World.Expires cfg₁ t₂ cfg)
    (hquiet : ∀ j e, .act j e ∈ t₂ → ¬ Inserts channel e)
    (hfree : Free c cfg₁.world.data channel) : Free c cfg.world.data channel := by
  refine h₂.related (R := fun w w' => Free c w.data channel → Free c w'.data channel)
    (fun _ h => h) ?_ ?_ ?_ hfree
  · intro w₀ w₁ w₂ h₁ h₂ hf
    exact h₂ (h₁ hf)
  · intro w₀ w₁ hexpires hf
    exact (free_congr (accounts_of_expiry hexpires)).mpr hf
  · intro j e he hf
    rcases accounts_of_act hw h (List.mem_append_right _ he) with ⟨hsame, -⟩ | ⟨a, hins, -, hnew⟩
    · exact (free_congr hsame).mpr hf
    · refine free_insert hnew ?_ hf
      intro hch
      exact hquiet j e he (hch ▸ hins)

theorem free_of_misses {t₁ : List (Occurrence ι Op.Resp World)} {i : ι}
    {look : Event Op.Resp World}
    (h : Exec World.Step World.Expires (arrived (server c marshals) requests w)
      (t₁ ++ [.act i look]) cfg) (hlook : Misses c channel look) :
    Free c cfg.world.data channel := by
  obtain ⟨cfg₁, k, -, -, -, hstep, rfl⟩ := h.last_act
  obtain ⟨b, a, rfl⟩ := hlook
  obtain ⟨hsame, hanswer⟩ := hstep.data
  have hnone : (b.data.db c.gameDB).findUserID channel = none := by
    simpa [eq_comm] using hanswer
  change Free c a.data channel
  dsimp only at hsame
  rw [hsame]
  exact free_of_findUserID hnone

theorem oneActive_of_undisturbed (hw : w.data.Sound c) (hone : OneActive c w.data)
    (h : Exec World.Step World.Expires (arrived (server c marshals) requests w) tr cfg)
    (hquiet : Undisturbed c tr) : OneActive c cfg.world.data := by
  induction tr using List.reverseRecOn generalizing cfg with
  | nil =>
    rw [h.eq_of_nil]
    exact hone
  | append_singleton tr o ih =>
    cases o with
    | env b a =>
      obtain ⟨cfg₁, h₁, rfl, hexpires, rfl⟩ := h.last_env
      exact (oneActive_congr (accounts_of_expiry hexpires)).mpr (ih h₁ hquiet.before)
    | act i e =>
      have hact := accounts_of_act hw h (List.mem_append_right tr (List.mem_singleton.mpr rfl))
      obtain ⟨cfg₁, k, h₁, -, hbefore, -, rfl⟩ := h.last_act
      have hprior := ih h₁ hquiet.before
      rw [hbefore] at hprior
      rcases hact with ⟨hsame, -⟩ | ⟨a, hins, hactive, hnew⟩
      · exact (oneActive_congr hsame).mpr hprior
      · rw [show OneActive c (Config.world ⟨e.after, _⟩).data = OneActive c e.after.data from rfl,
          oneActive_insert hnew hactive]
        refine ⟨hprior, ?_⟩
        obtain ⟨t₁, look, t₂, rfl, hlook⟩ := looked_of_inserts h hins
        have hothers := hquiet t₁ i look t₂ e [] _ (by simp) hlook hins
        have hcut : t₁ ++ .act i look :: t₂ = (t₁ ++ [.act i look]) ++ t₂ := by simp
        rw [hcut] at h₁
        obtain ⟨cfg₀, h₀, h₂⟩ := h₁.split
        have hfree := free_of_quiet hw h₁ h₂ hothers (free_of_misses h₀ hlook)
        rwa [hbefore] at hfree

theorem undisturbed_of_oneActive (hw : w.data.Sound c)
    (h : Exec World.Step World.Expires (arrived (server c marshals) requests w) tr cfg)
    (hone : OneActive c cfg.world.data) : Undisturbed c tr := by
  intro t₁ i look t₂ ins t₃ channel ht _ hins j e he hother
  obtain ⟨u₁, u₂, rfl⟩ := List.append_of_mem he
  -- the run up to the insertion of the login that is disturbed
  have hcut : tr = (t₁ ++ .act i look :: u₁) ++ .act j e :: u₂ ++ .act i ins :: t₃ := by
    rw [ht]
    simp
  subst hcut
  obtain ⟨cfg₁, h₁, h₂⟩ := h.split
  obtain ⟨k, -, hbefore, -, -⟩ := h₂.head_act
  have htaken : ¬ Free c ins.before.data channel := by
    have hgrows := grows_from hw h₁
    rw [hbefore] at hgrows
    rcases accounts_of_act hw h₁ (List.mem_append_right _ List.mem_cons_self) with
      ⟨-, hnone⟩ | ⟨a, hins', hactive, hnew⟩
    · exact absurd hother (hnone channel)
    · rw [hother.unique hins']
      exact fun hfree => not_free_insert hnew hactive (hfree.of_grows hgrows)
  have hlast := oneActive_of_grows (grows_from hw h) hone
  rcases accounts_of_act hw h (List.mem_append_right _ List.mem_cons_self) with
    ⟨-, hnone⟩ | ⟨a, hins', hactive, hnew⟩
  · exact hnone channel hins
  · rw [hins.unique hins'] at htaken
    exact htaken ((oneActive_insert hnew hactive).mp hlast).2

theorem owns_of_login (hw : w.data.Sound c)
    (h : Exec World.Step World.Expires (arrived (server c marshals) requests w) tr cfg) {i : ι}
    {reply : Reply} {res : LoginResponse} (hchannel : (requests i).raw.channel = some channel)
    (hret : cfg.procs i = .ret reply) (hbody : reply.response.body = .message (.login res)) :
    cfg.world.data.Owns c channel res.userId := by
  have hwp := (run_settles hw h).1 i
  rw [hret] at hwp
  exact hwp.2 channel reply res hchannel rfl hbody

/-- A run keeps at most one active account for each channel exactly when no first-time login
is disturbed; then all logins of a channel answer with one user id. -/
theorem one_active_iff (hw : w.data.Sound c) (hone : OneActive c w.data)
    (h : Exec World.Step World.Expires (arrived (server c marshals) requests w) tr cfg) :
    (OneActive c cfg.world.data ↔ Undisturbed c tr) ∧
      (Undisturbed c tr → ∀ i j channel reply reply' res res',
        (requests i).raw.channel = some channel → (requests j).raw.channel = some channel →
        cfg.procs i = .ret reply → cfg.procs j = .ret reply' →
        reply.response.body = .message (.login res) →
        reply'.response.body = .message (.login res') → res.userId = res'.userId) := by
  have hiff : OneActive c cfg.world.data ↔ Undisturbed c tr :=
    ⟨undisturbed_of_oneActive hw h, oneActive_of_undisturbed hw hone h⟩
  refine ⟨hiff, ?_⟩
  intro hquiet i j channel reply reply' res res' hi hj hreti hretj hbody hbody'
  have howns := owns_of_login hw h hi hreti hbody
  have howns' := owns_of_login hw h hj hretj hbody'
  exact owner_unique (hiff.mpr hquiet) howns howns'

end

/-! ## Two first logins of one channel -/

def logins : Bool → Incoming := fun _ => Sample.loginRequest 0 77 "a"

def calls (i : Bool) (n : ℕ) : List (Move Bool Choice World) :=
  List.replicate n (.act i
    { key := fun k => UInt64.ofNat (k + if i then 2 else 1), token := if i then "t" else "s" })

/-- The first login stops after `n` calls, lets the second run to its end, and goes on. -/
def race (n : ℕ) : List (Occurrence Bool Op.Resp World) ×
    Config Bool Op.Resp UnitOfWork Reply World :=
  play World.exec (calls false n ++ (calls true 24 ++ calls false 24))
    (arrived Sample.servers logins Sample.emptyWorld)

theorem exec_race (n : ℕ) : Exec World.Step World.Expires
    (arrived Sample.servers logins Sample.emptyWorld) (race n).1 (race n).2 := by
  apply exec_play
  intro f hf
  simp [calls] at hf

theorem one_active_iff_race :
    (OneActive Sample.container (race 2).2.world.data ↔ Undisturbed Sample.container (race 2).1) ∧
      (Undisturbed Sample.container (race 2).1 → ∀ i j channel reply reply' res res',
        (logins i).raw.channel = some channel → (logins j).raw.channel = some channel →
        (race 2).2.procs i = .ret reply → (race 2).2.procs j = .ret reply' →
        reply.response.body = .message (.login res) →
        reply'.response.body = .message (.login res') → res.userId = res'.userId) :=
  one_active_iff sound_empty List.Pairwise.nil (exec_race 2)

def answeredID : Call UnitOfWork Reply → Option UInt64
  | .ret reply =>
    match reply.response.body with
    | .message (.login res) => some res.userId
    | _ => none
  | _ => none

theorem login_of_answeredID {p : Call UnitOfWork Reply} {id : UInt64}
    (h : answeredID p = some id) : ∃ reply res, p = .ret reply ∧
      reply.response.body = .message (.login res) ∧ res.userId = id := by
  cases p with
  | ret reply =>
    simp only [answeredID] at h
    split at h
    · rename_i res hbody
      exact ⟨reply, res, rfl, hbody, Option.some.inj h⟩
    · cases h
  | raise u => cases h
  | call op k => cases h

/-- Both logins have missed the account before either inserts one. -/
theorem two_accounts :
    ∃ tr cfg reply reply' res res', Exec World.Step World.Expires
        (arrived Sample.servers logins Sample.emptyWorld) tr cfg ∧
      OneActive Sample.container Sample.emptyWorld.data ∧
      ¬ OneActive Sample.container cfg.world.data ∧
      cfg.procs false = .ret reply ∧ cfg.procs true = .ret reply' ∧
      reply.response.body = .message (.login res) ∧
      reply'.response.body = .message (.login res') ∧ res.userId ≠ res'.userId := by
  have hfirst : answeredID ((race 2).2.procs false) = some 1 := by decide +kernel
  have hsecond : answeredID ((race 2).2.procs true) = some 2 := by decide +kernel
  have htwo : ¬ OneActive Sample.container (race 2).2.world.data := by decide +kernel
  obtain ⟨reply, res, hret, hbody, hid⟩ := login_of_answeredID hfirst
  obtain ⟨reply', res', hret', hbody', hid'⟩ := login_of_answeredID hsecond
  refine ⟨_, _, reply, reply', res, res', exec_race 2, List.Pairwise.nil, htwo, hret, hret',
    hbody, hbody', ?_⟩
  rw [hid, hid']
  decide

end FutureWas.OneAccount
