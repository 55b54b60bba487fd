import FutureWas.Coherence.Requests

/-!
# Requests beside those of one user

What the requests of other users do to the rows and cached fields of a user while the user's
own requests run: nothing (`run_apart`). A request that names another user acts for that user
only; a `Login` acts for the owner of its channel or for an account it creates, and so for
nobody who owns another channel.
-/

set_option autoImplicit false

namespace FutureWas.Coherence

open Effect UowM Uow

/-- A request of somebody else: it leaves the rows and fields of the user alone. -/
def beside (c : Container) (uid : UInt64) : Setting Op.Resp Data where
  step := Data.Step
  rely d d' := d.Grows d' ∧ (d.Sound c → d'.Sound c)
  guar _ _ d d' := (exclusive c uid true).rely d d'
  pre _ _ := True
  rely_refl d := Data.moved_refl d
  rely_trans h h' := Data.moved_trans h h'

structure Stranger (c : Container) (uid ch : UInt64) (d : Data) : Prop where
  sound : d.Sound c
  account : d.HasAccount c uid
  other : ¬ d.Owns c ch uid

section

variable {c : Container} {uid uid' ch : UInt64} {d d' : Data} {ε α : Type}

theorem Stranger.moved (h : Stranger c uid ch d)
    (hr : d.Grows d' ∧ (d.Sound c → d'.Sound c)) : Stranger c uid ch d' where
  sound := hr.2 h.sound
  account := hr.1.hasAccount h.account
  other := by
    rintro ⟨a, ha, hid, hch, hactive⟩
    obtain ⟨a₀, ha₀, hid₀⟩ := h.account
    obtain ⟨a', ha', hstatic⟩ :=
      List.mem_map.mp (hr.1.mem (List.mem_map_of_mem (f := Row.static) ha₀))
    have hkey : Account.userID a' = Account.userID a :=
      (Row.primaryKey_eq (e := .account) hstatic).trans (hid₀.trans hid.symm)
    have hsame : a' = a :=
      List.inj_on_of_nodup_map ((hr.2 h.sound).keyed c.gameDB |>.nodup .account) ha' ha hkey
    subst hsame
    have hcolumns : Account.channelUID (Row.static (e := .account) a') =
          Account.channelUID (Row.static (e := .account) a₀) ∧
        Account.isActive (Row.static (e := .account) a') =
          Account.isActive (Row.static (e := .account) a₀) := by
      rw [hstatic]
      exact ⟨rfl, rfl⟩
    have hactive₀ : Account.isActive a' = Account.isActive a₀ := hcolumns.2
    exact h.other ⟨a₀, ha₀, hid₀, hcolumns.1.symm.trans hch, hactive₀ ▸ hactive⟩

theorem stranger_stable : (beside c uid).Stable (Stranger c uid ch) := fun _ _ hr h => h.moved hr

theorem apart_of_change (hne : uid' ≠ uid) (h : Change c uid' d d') :
    (exclusive c uid true).rely d d' :=
  ⟨⟨h.grows, h.sound⟩, fun hr => hr.of_accounts h.accounts,
    .of_confined (Ne.symm hne) h.toConfinedTo⟩

theorem lift_beside {creates : Bool} (hne : uid' ≠ uid) {p : Call ε α}
    {Q : Outcome ε α → Data → Prop} (h : (tenant c uid' creates).wp p Q d) :
    (beside c uid).wp p Q d := by
  have htrue : (beside c uid).Stable fun _ => True := fun _ _ _ _ => trivial
  refine Setting.wp_mono (fun _ _ h => h.2) (Setting.wp_conseq (S := tenant c uid' creates)
    (T := beside c uid) (fun _ _ h => h) htrue ?_ trivial h)
  intro op d₁ _ _
  exact ⟨trivial, fun r d₂ hs => ⟨hs, fun hguar => ⟨apart_of_change hne hguar, trivial⟩⟩⟩

theorem still_beside {P : Data → Prop} (op : Op) (hop : op.Still) (h : P d) :
    (beside c uid).pre op d ∧
      ∀ r d', (beside c uid).step op d r d' → (beside c uid).guar op r d d' ∧ P d' := by
  refine ⟨trivial, fun r d' hs => ?_⟩
  rw [hop.unchanged hs]
  exact ⟨(exclusive c uid true).rely_refl d, h⟩

theorem safe_beside {P : Data → Prop} (hP : (beside c uid).Stable P) {p : Call ε α}
    (hp : p.Safe Op.Still) (h : P d) :
    (beside c uid).wp p (fun o d' => (∃ a, o = .ret a) ∧ P d') d :=
  Setting.wp_safe hP (fun op _ hop hd => still_beside op hop hd) hp h

theorem respond_beside {action : UInt32} {code : Int32} {body : ResponseBody}
    {sync : Option SyncData} {v : Option UnitOfWork} :
    (beside c uid).wp ((sendGameResponse action code body sync).bind fun res => .ret ⟨res, v⟩)
      (fun (_ : Outcome UnitOfWork Reply) _ => True) d := by
  have htrue : (beside c uid).Stable fun _ => True := fun _ _ _ _ => trivial
  exact Setting.wp_call htrue trivial fun d₁ _ => still_beside .timeNow trivial trivial

/-! ## Login -/

/-- A `Login` that has found or created the account of another user. -/
structure Elsewhere (c : Container) (uid : UInt64) (u : UnitOfWork) (d : Data) : Prop where
  holds : Holds c u.userID true [] u d
  other : u.userID ≠ uid

theorem lift_elsewhere {u : UnitOfWork} {m : UowM α} {Pre : UnitOfWork → Prop}
    {Post : α → UnitOfWork → Prop} (h : Elsewhere c uid u d)
    (hm : Keeps (tenant c u.userID true) (Holds c u.userID true) Pre m Post) (hu : Pre u) :
    UowM.wp (beside c uid) m
      (fun r u' d' => Elsewhere c uid u' d' ∧ ∀ a, r = .ok a → Post a u') (fun _ _ => True) u
        d := by
  refine Setting.wp_mono ?_ (lift_beside h.other (hm u d h.holds hu))
  rintro (⟨r, u'⟩ | u') d' hQ
  · obtain ⟨hholds, -, hpost⟩ := hQ
    have hid := hholds.user
    rw [← hid] at hholds
    exact ⟨⟨hholds, fun heq => h.other (hid.symm.trans heq)⟩, hpost⟩
  · trivial

theorem apart_of_created (h : Stranger c uid ch d) {m : Account} {k : UInt64}
    (hk : (d.db c.gameDB).Fresh .account k) :
    k ≠ uid ∧ (exclusive c uid true).rely d (d.setDb c.gameDB
      ((d.db c.gameDB).insert .account (Row.setPrimaryKey (e := .account) k m))) := by
  obtain ⟨hgrows, hsound, hconfined⟩ := insert_account h.sound hk (m := m)
  have hne : k ≠ uid := by
    rintro rfl
    obtain ⟨a, ha, hid⟩ := h.account
    exact hk.2 a ha hid
  refine ⟨hne, ⟨hgrows, fun _ => hsound⟩, fun hr a ha hid => ?_,
    .of_confined (Ne.symm hne) hconfined⟩
  rw [Data.setDb_db_self, Tables.insert_self] at ha
  rcases List.mem_append.mp ha with ha | ha
  · exact hr a ha hid
  · rw [List.mem_singleton.mp ha] at hid
    exact absurd hid hne

theorem AccountService.login_beside {deviceID : String} {u : UnitOfWork} (hu : Bare u)
    (h : Stranger c uid ch d) :
    UowM.wp (beside c uid) (AccountService.login c ch deviceID)
      (fun r u' d' => ∀ p, r = .ok p → Elsewhere c uid u' d' ∧ u'.Held .account p.1)
      (fun _ _ => True) u d := by
  refine wp_perform_bind stranger_stable h ?_
  intro d₁ h₁
  refine ⟨trivial, fun reply d₂ hs => ?_⟩
  have hsame : d₂ = d₁ := hs.1
  subst hsame
  refine ⟨(exclusive c uid true).rely_refl d₂, ?_⟩
  cases reply with
  | none => exact fun _ hr => by cases hr
  | some found =>
    have howner : ∀ uid', found = some uid' → uid' ≠ uid := by
      rintro uid' rfl rfl
      exact h₁.other (owns_of_findUserID (by simpa [eq_comm] using hs.2))
    refine wp_perform_bind stranger_stable h₁ ?_
    intro d₃ h₃
    refine ⟨trivial, fun now d₄ hs₄ => ?_⟩
    have hsame₄ : d₄ = d₃ := hs₄
    subst hsame₄
    refine ⟨(exclusive c uid true).rely_refl d₄, ?_⟩
    cases found with
    | none =>
      refine wp_bind (wp_mono ?_ (fun _ _ _ => trivial) (pickShard_wp stranger_stable
        (fun n _ hd => still_beside (.intN n) trivial hd) h₃))
      rintro (err | shardID) u' d₅ ⟨rfl, h₅⟩
      · exact fun _ hr => by cases hr
      · change UowM.wp (beside c uid) (new .account ⟨0, ch, deviceID, 1, shardID, now, now⟩ >>= _)
          _ _ u' d₅
        unfold UowM.wp
        rw [AccountService.new_eq]
        refine Setting.wp_call stranger_stable h₅ ?_
        intro d₆ h₆
        refine ⟨trivial, fun r d₇ hs₇ => ?_⟩
        rcases hs₇ with ⟨rfl, rfl⟩ | ⟨k, ⟨hk, -⟩, rfl, rfl⟩
        · exact ⟨(exclusive c uid true).rely_refl d₇, fun _ hr => by cases hr⟩
        · obtain ⟨hne, hapart⟩ :=
            apart_of_created h₆ hk (m := ⟨0, ch, deviceID, 1, shardID, now, now⟩)
          refine ⟨hapart, ?_⟩
          rintro p ⟨⟩
          exact ⟨⟨hu.created h₆.sound hk, hne⟩, .one u'.heap.next,
            UnitOfWork.loadedOne_store _ .account _, List.mem_singleton.mpr rfl⟩
    | some uid' =>
      have hbare : Bare { u with userID := uid' } := ⟨hu.club, hu.store, hu.dbOps⟩
      have hkeeps : Keeps (tenant c uid' true) (Holds c uid' true) (fun _ => True) _ _ :=
        AccountService.keeps_found holds_closed deviceID now
      have helse : Elsewhere c uid { u with userID := uid' } d₄ :=
        ⟨hbare.holds h₃.sound, howner uid' rfl⟩
      refine wp_local rfl (wp_mono ?_ (fun _ _ h => h) (lift_elsewhere helse hkeeps trivial))
      rintro r u' d' ⟨helse', hpost⟩
      exact fun p hp => ⟨helse', hpost p hp⟩

theorem login_beside {body : Body} {u : UnitOfWork} (hu : Bare u)
    (h : ∀ ch, body.login.map LoginRequest.channelUid = some ch → Stranger c uid ch d) :
    UowM.wp (beside c uid) (login c body)
      (fun r u' d' => ∀ m, r = .ok m → Elsewhere c uid u' d') (fun _ _ => True) u d := by
  unfold login
  cases hlogin : body.login with
  | none => exact fun _ hr => by cases hr
  | some req =>
    have hstranger := h req.channelUid (by rw [hlogin]; rfl)
    dsimp only
    split_ifs
    · exact fun _ hr => by cases hr
    · refine wp_bind (wp_mono ?_ (fun _ _ h => h) (AccountService.login_beside hu hstranger))
      rintro (err | p) u₁ d₁ h₁
      · exact fun _ hr => by cases hr
      · obtain ⟨helse, hheld⟩ := h₁ p rfl
        have hkeeps : Keeps (tenant c u₁.userID true) (Holds c u₁.userID true) _ _ _ :=
          keeps_loginWith holds_closed holds_extends holds_signs p.1 p.2
        refine wp_mono ?_ (fun _ _ h => h) (lift_elsewhere helse hkeeps hheld)
        rintro r u₂ d₂ ⟨helse₂, -⟩
        exact fun _ _ => helse₂

theorem serve_login_beside {s : Server} {catalog : Catalog} {def_ : ActionDef}
    {req : GameRequest} (hdef : def_.handler = login c)
    (h : ∀ ch, req.body.login.map LoginRequest.channelUid = some ch → Stranger c uid ch d) :
    (beside c uid).wp (serve s catalog def_ req) (fun _ _ => True) d := by
  have hstable : (beside c uid).Stable fun d => ∀ ch,
      req.body.login.map LoginRequest.channelUid = some ch → Stranger c uid ch d :=
    fun _ _ hr h ch hch => (h ch hch).moved hr
  refine Setting.wp_call hstable h ?_
  intro d₁ h₁
  refine ⟨trivial, fun r d₂ hs => ?_⟩
  have hsame : d₂ = d₁ := hs
  subst hsame
  refine ⟨(exclusive c uid true).rely_refl d₂, ?_⟩
  have hbare : Bare (.new req.userId catalog) := ⟨rfl, fun _ => rfl, rfl⟩
  rw [hdef]
  refine Setting.wp_bind (Setting.wp_mono ?_ (login_beside hbare h₁))
  rintro (⟨err | result, u'⟩ | u') d' h'
  · exact respond_beside
  · have helse := h' result rfl
    have hfinish : (tenant c u'.userID true).wp (finish s req.action result u')
        (fun o _ => Ended req.userId u'.userID (fun _ => True) o) d' :=
      finish_wp helse.holds trivial
    exact Setting.wp_mono (fun _ _ _ => trivial) (lift_beside helse.other hfinish)
  · trivial

/-! ## Whole requests -/

structure Foreign (c : Container) (uid : UInt64) (d : Data) (r : Incoming) : Prop where
  user : r.raw.LogsIn ∨ r.raw.userId ≠ uid
  channel : ∀ ch, r.raw.channel = some ch → ¬ d.Owns c ch uid

theorem request_beside {marshals : Message → Bool} {r : Incoming} (hr : Foreign c uid d r)
    (hd : d.Sound c) (hacc : d.HasAccount c uid) :
    (beside c uid).wp (r.program (server c marshals)) (fun _ _ => True) d := by
  by_cases hlogin : r.raw.LogsIn
  · obtain ⟨store, raw⟩ := r
    cases raw with
    | unreadable => exact hlogin.elim
    | malformed => exact hlogin.elim
    | envelope req =>
      have haction : req.action = actionLogin := hlogin
      have hregistered : actionRegistry c req.action = some ⟨login c, true⟩ := by
        rw [haction]
        rfl
      have hchannel : (Raw.envelope req).channel = req.body.login.map LoginRequest.channelUid := by
        simp [Raw.channel, haction]
      have hstable : (beside c uid).Stable fun d => ∀ ch,
          req.body.login.map LoginRequest.channelUid = some ch → Stranger c uid ch d :=
        fun _ _ hr h ch hch => (h ch hch).moved hr
      have hstranger : ∀ ch, req.body.login.map LoginRequest.channelUid = some ch →
          Stranger c uid ch d :=
        fun ch hch => ⟨hd, hacc, hr.channel ch (hchannel.trans hch)⟩
      simp only [Incoming.program, dispatch, server, hregistered]
      cases store.getByClientVersion req.clientVersion with
      | none => exact respond_beside
      | some catalog =>
        change (beside c uid).wp (underUserLock req (serve _ catalog _ req)) _ d
        unfold underUserLock
        split_ifs
        · exact serve_login_beside rfl hstranger
        · have hsafe : (acquireUserLock req.userId : Call UnitOfWork (Option String)).Safe
              Op.Still :=
            safe_acquireUserLock.mono fun op h => (@still_of_acquire c req.userId true op h).1
          refine Setting.wp_bind (Setting.wp_mono ?_ (safe_beside hstable hsafe hstranger))
          rintro _ d₁ ⟨⟨token, rfl⟩, h₁⟩
          cases token with
          | none => exact respond_beside
          | some token =>
            refine Setting.wp_ensure (Setting.wp_mono ?_ (serve_login_beside rfl h₁))
            rintro o d₂ -
            have htrue : (beside c uid).Stable fun _ => True := fun _ _ _ _ => trivial
            refine Setting.wp_call htrue trivial fun d₃ _ => ?_
            refine ⟨trivial, fun r d₄ hs => ?_⟩
            have hsame : d₄ = d₃ := hs
            subst hsame
            refine ⟨(exclusive c uid true).rely_refl d₄, ?_⟩
            cases o with
            | ret rep => trivial
            | raise u => trivial
  · exact Setting.wp_mono (fun _ _ _ => trivial)
      (lift_beside (hr.user.resolve_left hlogin) (request_wp hlogin hd))

end

/-! ## Runs -/

section

variable {ι : Type} [DecidableEq ι] {c : Container} {uid : UInt64} {marshals : Message → Bool}
  {requests : ι → Incoming} {w : World} {tr : List (Occurrence ι Op.Resp World)}
  {cfg : Config ι Op.Resp UnitOfWork Reply World}

def Mine (uid : UInt64) (r : Incoming) : Prop := ¬ r.raw.LogsIn ∧ r.raw.userId = uid

instance (r : Raw) : Decidable r.LogsIn :=
  match r with
  | .envelope req => inferInstanceAs (Decidable (req.action = actionLogin))
  | .unreadable | .malformed => .isFalse id

instance (r : Incoming) : Decidable (Mine uid r) := inferInstanceAs (Decidable (_ ∧ _))

/-- Whatever the requests of others do in a run leaves the rows and fields of the user alone,
as long as none logs the user in. -/
theorem run_apart (hw : w.data.Sound c) (hacc : w.data.HasAccount c uid)
    (hchannels : ∀ i ch, (requests i).raw.channel = some ch → ¬ w.data.Owns c ch uid)
    (h : Exec World.Step World.Expires (arrived (server c marshals) requests w) tr cfg) {i : ι}
    {e : Event Op.Resp World} (he : .act i e ∈ tr) (hi : ¬ Mine uid (requests i)) :
    (exclusive c uid true).rely e.before.data e.after.data := by
  let S : ι → Setting Op.Resp World := fun i =>
    (if Mine uid (requests i) then anyone c (requests i).raw.channel else beside c uid).comap
      World.data World.Step
  have hmoves : ∀ i op r w w', (S i).guar op r w w' →
      w.data.Grows w'.data ∧ (w.data.Sound c → w'.data.Sound c) := by
    intro i op r w w' hg
    by_cases hi : Mine uid (requests i)
    · simp only [S, if_pos hi] at hg
      exact ⟨hg.1, hg.2.1⟩
    · simp only [S, if_neg hi] at hg
      exact hg.1
  have hrelies : ∀ i w w', w.data.Grows w'.data ∧ (w.data.Sound c → w'.data.Sound c) →
      (S i).rely w w' := by
    intro i w w' hm
    by_cases hi : Mine uid (requests i)
    · simp only [S, if_pos hi]
      exact hm
    · simp only [S, if_neg hi]
      exact hm
  have hsound := Exec.sound (S := S) (Q := fun _ _ _ => True) (fun i op w r w' h => h)
    (fun i w w' h => hrelies i w w' (Isolation.expires_rely none h))
    (fun i j _ op r w w' _ hg => hrelies j w w' (hmoves i op r w w' hg))
    (fun _ _ _ _ _ _ => trivial) ?_ h
  · have hguar := (hsound.2 i e he).2
    simp only [S, if_neg hi] at hguar
    exact hguar
  · intro j
    have hdata : ∀ op w r w', World.Step op w r w' → Data.Step op w.data r w'.data :=
      fun _ _ _ _ h => h.data
    by_cases hj : Mine uid (requests j)
    · simp only [S, if_pos hj]
      exact Setting.wp_mono (fun _ _ _ => trivial)
        (Setting.wp_traced_comap hdata (request_settles hw))
    · simp only [S, if_neg hj]
      have hforeign : Foreign c uid w.data (requests j) :=
        ⟨by unfold Mine at hj; tauto, hchannels j⟩
      have hrequest : (beside c uid).wp ((requests j).program (server c marshals))
          (fun _ _ => True) w.data := request_beside hforeign hw hacc
      have hwp := Setting.wp_comap hdata hrequest
      exact Setting.wp_mono (fun _ _ _ => trivial) (Setting.wp_traced hwp [])

end

end FutureWas.Coherence
