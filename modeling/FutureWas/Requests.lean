import FutureWas.Tenancy

/-!
# Requests

What a whole request may change, whatever its action. A request other than `Login` acts for
the user of its envelope from its first call (`request_wp`). A `Login` first looks its
channel up and only then, with the account found or created, becomes the request of one user;
the calls before that change nothing, except for the `INSERT` of the account itself
(`login_wp`).

`anyone c ch` is the setting both fit in: what any request may do among any others. `ch` is
the channel the request logs in, if it does.
-/

set_option autoImplicit false

namespace FutureWas

open Effect UowM Uow

/-! ## Calls that change no rows or fields -/

def Op.Still : Op → Prop
  | .findUserID _ _ | .newToken | .lockWait | .now | .timeNow | .intN _ | .enter _ _ => True
  | .sessionVerify _ _ | .lockAcquire _ _ | .lockRelease _ _ => True
  | _ => False

theorem Op.Still.unchanged {op : Op} (hop : op.Still) {d d' : Data} {r : op.Resp}
    (h : Data.Step op d r d') : d' = d := by
  cases op <;> first | exact h | exact h.1 | exact hop.elim

section

variable {c : Container} {uid : UInt64} {creates : Bool} {ε α : Type}

theorem still_wp {P : Data → Prop} (hP : (tenant c uid creates).Stable P) {p : Call ε α}
    (hp : p.Safe fun op => op.Still ∧ ∀ d, MayIssue c uid creates d op) {d : Data} (hd : P d) :
    (tenant c uid creates).wp p (fun o d' => (∃ a, o = .ret a) ∧ P d') d := by
  refine Setting.wp_safe hP ?_ hp hd
  intro op d₁ hop hd₁
  refine ⟨hop.2 d₁, fun r d₂ hs => ?_⟩
  have hsame := hop.1.unchanged hs
  subst hsame
  exact ⟨.refl d₂, hd₁⟩

theorem still_of_acquire {op : Op} (h : op.OfAcquire uid) :
    op.Still ∧ ∀ d, MayIssue c uid creates d op := by
  rcases h with rfl | rfl | ⟨t, rfl⟩
  · exact ⟨trivial, fun _ => trivial⟩
  · exact ⟨trivial, fun _ => trivial⟩
  · exact ⟨trivial, fun _ => rfl⟩

theorem still_of_verify {op : Op} (h : ∃ t, op = .sessionVerify uid t) :
    op.Still ∧ ∀ d, MayIssue c uid creates d op := by
  obtain ⟨t, rfl⟩ := h
  exact ⟨trivial, fun _ => rfl⟩

end

/-! ## Requests of a user who is known -/

/-- The user a request ends with; one that never had a unit of work ends with that of its
envelope. -/
def endsAs (envelope : UInt64) : Outcome UnitOfWork Reply → UInt64
  | .ret rep => (rep.uow.map UnitOfWork.userID).getD envelope
  | .raise u => u.userID

def Ended (envelope uid : UInt64) (P : Message → Prop) (o : Outcome UnitOfWork Reply) : Prop :=
  endsAs envelope o = uid ∧ ∀ rep m, o = .ret rep → rep.response.body = .message m → P m

section

variable {c : Container} {envelope uid : UInt64} {creates : Bool} {d : Data}
  {P : Message → Prop}

theorem respond_wp {action : UInt32} {code : Int32} {body : ResponseBody} {sync : Option SyncData}
    {u : Option UnitOfWork} (hu : (u.map UnitOfWork.userID).getD envelope = uid)
    (hbody : ∀ m, body = .message m → P m) :
    (tenant c uid creates).wp
      ((sendGameResponse action code body sync).bind fun res => .ret ⟨res, u⟩)
      (fun o _ => Ended envelope uid P o) d := by
  intro d₁ _
  refine ⟨trivial, fun t d₂ hs => ⟨.of_eq hs, hu, ?_⟩⟩
  intro rep m ho hm
  cases ho
  exact hbody m hm

theorem finish_wp {s : Server} {action : UInt32} {result : Message} {u : UnitOfWork}
    (h : Holds c uid creates [] u d) (hresult : P result) :
    (tenant c uid creates).wp (finish s action result u) (fun o _ => Ended envelope uid P o) d := by
  refine Setting.wp_bind (Setting.wp_mono ?_ (commitOrRollback_wp h))
  rintro (⟨err | _, u'⟩ | u') d' hends
  · exact respond_wp hends.1 (by simp)
  · dsimp only
    split_ifs
    · refine respond_wp hends.1 ?_
      rintro m ⟨⟩
      exact hresult
    · exact respond_wp hends.1 (by simp)
  · exact ⟨hends.1, by simp⟩

theorem serve_wp {s : Server} {catalog : Catalog} {def_ : ActionDef} {req : GameRequest}
    {Post : Message → UnitOfWork → Prop} (hd : d.Sound c) (hid : req.userId = uid)
    (hk : Keeps (tenant c uid creates) (Holds c uid creates) (fun _ => True)
      (def_.handler req.body) Post)
    (hpost : ∀ m u d, Holds c uid creates [] u d → Post m u → P m) :
    (tenant c uid creates).wp (serve s catalog def_ req) (fun o _ => Ended envelope uid P o) d := by
  have hstable : (tenant c uid creates).Stable fun d => d.Sound c := fun d d' hr h => hr.2 h
  refine Setting.wp_call hstable hd ?_
  intro d₁ hd₁
  refine ⟨trivial, fun _ d₂ hs => ⟨.of_eq hs, ?_⟩⟩
  have hs : d₂ = d₁ := hs
  subst hs
  have hnew : Holds c uid creates [] (.new req.userId catalog) d₂ :=
    ⟨hid, rfl, hd₁, by simp [UnitOfWork.new], by simp [UnitOfWork.new], by simp⟩
  refine Setting.wp_bind (Setting.wp_mono ?_ (hk _ d₂ hnew trivial))
  rintro (⟨err | result, u'⟩ | u') d' h
  · exact respond_wp h.1.user (by simp)
  · exact finish_wp h.1 (hpost result u' d' h.1 (h.2.2 _ rfl))
  · obtain ⟨X, hX⟩ := h
    exact ⟨hX.user, by simp⟩

theorem underUserLock_wp {req : GameRequest} {p : Call UnitOfWork Reply} (hid : req.userId = uid)
    (henvelope : envelope = uid)
    (hd : d.Sound c) (hp : ∀ d, d.Sound c →
      (tenant c uid creates).wp p (fun o _ => Ended envelope uid P o) d) :
    (tenant c uid creates).wp (underUserLock req p) (fun o _ => Ended envelope uid P o) d := by
  subst hid
  have hstable : (tenant c req.userId creates).Stable fun d => d.Sound c := fun d d' hr h => hr.2 h
  unfold underUserLock
  split_ifs
  · exact hp d hd
  · refine Setting.wp_bind (Setting.wp_mono ?_
      (still_wp hstable (safe_acquireUserLock.mono fun _ => still_of_acquire) hd))
    rintro _ d₁ ⟨⟨token, rfl⟩, hd₁⟩
    cases token with
    | none => exact respond_wp henvelope (by simp)
    | some token =>
      refine Setting.wp_ensure (Setting.wp_mono ?_ (hp d₁ hd₁))
      intro o d₂ ho d₃ _
      refine ⟨rfl, fun r d₄ hs => ⟨.of_eq hs, ?_⟩⟩
      cases o with
      | ret rep => exact ho
      | raise u => exact ho

end

/-! ### All actions but Login -/

def Raw.LogsIn : Raw → Prop
  | .envelope req => req.action = actionLogin
  | _ => False

theorem noAuth_iff {c : Container} {action : UInt32} {def_ : ActionDef}
    (h : actionRegistry c action = some def_) : def_.noAuth = true ↔ action = actionLogin := by
  unfold actionRegistry at h
  split_ifs at h with h₁ <;> cases h <;> simp [h₁]

theorem request_wp {c : Container} {marshals : Message → Bool} {r : Incoming} {d : Data}
    (hlogin : ¬ r.raw.LogsIn) (hd : d.Sound c) :
    (tenant c r.raw.userId false).wp (r.program (server c marshals))
      (fun o _ => Ended r.raw.userId r.raw.userId (fun _ => True) o) d := by
  obtain ⟨store, raw⟩ := r
  cases raw with
  | unreadable => exact respond_wp rfl (by simp)
  | malformed => exact respond_wp rfl (by simp)
  | envelope req =>
    have hstable : (tenant c req.userId false).Stable fun d => d.Sound c := fun d d' hr h => hr.2 h
    simp only [Incoming.program, dispatch, server]
    cases haction : actionRegistry c req.action with
    | none => exact respond_wp rfl (by simp)
    | some def_ =>
      cases store.getByClientVersion req.clientVersion with
      | none => exact respond_wp rfl (by simp)
      | some catalog =>
        have hauth : def_.noAuth = false := by
          rw [Bool.eq_false_iff]
          exact fun h => hlogin ((noAuth_iff haction).mp h)
        refine Setting.wp_bind (Setting.wp_mono ?_
          (still_wp hstable (safe_authenticate.mono fun _ => still_of_verify) hd))
        rintro _ d₁ ⟨⟨refusal, rfl⟩, hd₁⟩
        cases refusal with
        | some refusal => exact respond_wp rfl (by simp)
        | none =>
          refine underUserLock_wp rfl rfl hd₁ fun d hd => ?_
          exact serve_wp hd rfl (keeps_handler holds_closed haction hauth req.body)
            fun _ _ _ _ _ => trivial

/-! ## Any request -/

def Raw.channel : Raw → Option UInt64
  | .envelope req =>
    if req.action = actionLogin then req.body.login.map LoginRequest.channelUid else none
  | _ => none

namespace Data

variable (c : Container) (d : Data)

def Owns (channel uid : UInt64) : Prop :=
  ∃ a ∈ (d.db c.gameDB) .account,
    Account.userID a = uid ∧ Account.channelUID a = channel ∧ 0 < Account.isActive a

def accounts : List (Row .account) := ((d.db c.gameDB) .account).map Row.static

variable {c d}

theorem Grows.owns {d' : Data} {channel uid : UInt64} (h : d.Grows d')
    (ha : d.Owns c channel uid) : d'.Owns c channel uid := by
  obtain ⟨a, ha, hid, hch, hactive⟩ := ha
  obtain ⟨a', ha', hstatic⟩ := List.mem_map.mp (h.mem (List.mem_map_of_mem (f := Row.static) ha))
  have hcolumns : Account.channelUID (Row.static (e := .account) a') =
        Account.channelUID (Row.static (e := .account) a) ∧
      Account.isActive (Row.static (e := .account) a') =
        Account.isActive (Row.static (e := .account) a) := by
    rw [hstatic]
    exact ⟨rfl, rfl⟩
  refine ⟨a', ha', (Row.primaryKey_eq hstatic).trans hid, hcolumns.1.trans hch, ?_⟩
  have hsame : Account.isActive a' = Account.isActive a := hcolumns.2
  rw [hsame]
  exact hactive

end Data

section

variable (c : Container) (channel : Option UInt64)

/-- When a request may insert an account or store a session. -/
def Opens (d : Data) : Op → Prop
  | .create db .account m =>
    db = c.gameDB ∧ channel = some (Account.channelUID m) ∧ 0 < Account.isActive m
  | .create _ _ _ => False
  | .sessionSet id _ => ∃ ch, channel = some ch ∧ d.Owns c ch id
  | _ => True

/-- Any request, logging in a channel if there is one, among any others. -/
def anyone : Setting Op.Resp Data where
  step := Data.Step
  rely d d' := d.Grows d' ∧ (d.Sound c → d'.Sound c)
  guar op _ d d' := d.Grows d' ∧ (d.Sound c → d'.Sound c) ∧
    ((∀ db m, op ≠ .create db .account m) → d'.accounts c = d.accounts c)
  pre op d := Opens c channel d op
  rely_refl d := Data.moved_refl d
  rely_trans h h' := Data.moved_trans h h'

end

def Tidy (uid : UInt64) (tr : List (Event Op.Resp Data)) : Prop :=
  ∀ e ∈ tr, ConfinedTo uid e.before e.after

def Settled (c : Container) (r : Incoming) (o : Outcome UnitOfWork Reply)
    (s : Data × List (Event Op.Resp Data)) : Prop :=
  Tidy (endsAs r.raw.userId o) s.2 ∧
    ∀ ch rep res, r.raw.channel = some ch → o = .ret rep →
      rep.response.body = .message (.login res) → s.1.Owns c ch res.userId

section

variable {c : Container} {channel : Option UInt64} {ε α : Type} {d : Data}
  {tr : List (Event Op.Resp Data)}

theorem Op.Still.opens {op : Op} (hop : op.Still) (d : Data) : Opens c channel d op := by
  cases op <;> trivial

theorem anyone_same (channel : Option UInt64) (op : Op) (r : op.Resp) (d : Data) :
    (anyone c channel).guar op r d d :=
  ⟨.refl d, id, fun _ => rfl⟩

theorem lift_wp {uid : UInt64} {creates : Bool} {p : Call ε α} {Q : Outcome ε α → Data → Prop}
    (howns : creates = true → ∃ ch, channel = some ch ∧ d.Owns c ch uid)
    (h : (tenant c uid creates).wp p Q d) (htr : Tidy uid tr) :
    (anyone c channel).traced.wp p
      (fun o s => (creates = true → ∃ ch, channel = some ch ∧ s.1.Owns c ch uid) ∧ Q o s.1 ∧
        Tidy uid s.2) (d, tr) := by
  have htraced := Setting.wp_traced h tr
  have hF : ((anyone c channel).traced).Stable fun s =>
      creates = true → ∃ ch, channel = some ch ∧ s.1.Owns c ch uid := by
    intro s s' hr hs hcreates
    obtain ⟨ch, hch, ho⟩ := hs hcreates
    exact ⟨ch, hch, hr.1.1.owns ho⟩
  have hrely : ∀ s s', (anyone c channel).traced.rely s s' →
      (tenant c uid creates).traced.rely s s' := fun _ _ h => h
  refine Setting.wp_mono ?_ (Setting.wp_conseq hrely hF ?_ howns htraced)
  · rintro o ⟨d', tr'⟩ ⟨hs, hQ, t, rfl, ht⟩
    refine ⟨hs, hQ, ?_⟩
    intro e he
    rcases List.mem_append.mp he with he | he
    · exact htr e he
    · exact (ht e he).2.toConfinedTo
  · intro op s hs hpre
    refine ⟨?_, fun r s' hstep => ⟨hstep, fun hguar => ?_⟩⟩
    · have hmay : MayIssue c uid creates s.1 op := hpre
      cases op with
      | create => exact hmay.elim
      | sessionSet id token =>
        obtain ⟨hcreates, hid, -⟩ := hmay
        rw [hid]
        exact hs hcreates
      | _ => trivial
    · have hchange : Change c uid s.1 s'.1 := hguar
      refine ⟨⟨hchange.grows, hchange.sound, fun _ => hchange.accounts⟩, fun hcreates => ?_⟩
      obtain ⟨ch, hch, ho⟩ := hs hcreates
      exact ⟨ch, hch, hchange.grows.owns ho⟩

theorem still_traced {I : Data × List (Event Op.Resp Data) → Prop}
    (hI : (anyone c channel).traced.Stable I)
    (hstill : ∀ d tr op r, I (d, tr) → I (d, tr ++ [⟨op, r, d, d⟩])) {p : Call ε α}
    (hp : p.Safe Op.Still) {s : Data × List (Event Op.Resp Data)} (hs : I s) :
    (anyone c channel).traced.wp p (fun o s => (∃ a, o = .ret a) ∧ I s) s := by
  refine Setting.wp_safe hI ?_ hp hs
  intro op s₁ hop hs₁
  refine ⟨hop.opens s₁.1, ?_⟩
  rintro r ⟨d₂, tr₂⟩ ⟨hstep, htr₂⟩
  have hsame := hop.unchanged hstep
  dsimp only at hsame htr₂
  subst hsame htr₂
  exact ⟨anyone_same channel op r _, hstill _ _ op r hs₁⟩

theorem ConfinedTo.refl (uid : UInt64) (d : Data) : ConfinedTo uid d d :=
  ⟨fun _ _ => rfl, fun _ _ _ => rfl⟩

/-- Before a `Login` has its account: nothing has changed. -/
def Untouched (c : Container) (s : Data × List (Event Op.Resp Data)) : Prop :=
  s.1.Sound c ∧ ∀ e ∈ s.2, e.after = e.before

theorem Untouched.tidy {s : Data × List (Event Op.Resp Data)} (h : Untouched c s)
    (uid : UInt64) : Tidy uid s.2 := by
  intro e he
  rw [h.2 e he]
  exact .refl uid e.before

theorem untouched_stable : (anyone c channel).traced.Stable (Untouched c) := by
  rintro ⟨d, tr⟩ ⟨d', tr'⟩ ⟨hr, htr⟩ h
  dsimp only at htr
  subst htr
  exact ⟨hr.2 h.1, h.2⟩

theorem Untouched.still (op : Op) (r : op.Resp) (h : Untouched c (d, tr)) :
    Untouched c (d, tr ++ [⟨op, r, d, d⟩]) := by
  refine ⟨h.1, fun e he => ?_⟩
  rcases List.mem_append.mp he with he | he
  · exact h.2 e he
  · rw [List.mem_singleton.mp he]

theorem untouched_bind {P : Data → Prop} (hP : ∀ d d', d.Grows d' → P d → P d') {β : Type}
    {op : Op} {f : op.Resp → UowM β}
    {Q : Except GoError β → UnitOfWork → Data × List (Event Op.Resp Data) → Prop}
    {R : UnitOfWork → Data × List (Event Op.Resp Data) → Prop} {u : UnitOfWork}
    {s : Data × List (Event Op.Resp Data)} (hs : Untouched c s) (hPs : P s.1) (hop : op.Still)
    (h : ∀ r s', Untouched c s' → P s'.1 → Data.Step op s'.1 r s'.1 →
      UowM.wp (anyone c channel).traced (f r) Q R u s') :
    UowM.wp (anyone c channel).traced (perform op >>= f) Q R u s := by
  have hstable : (anyone c channel).traced.Stable fun s => Untouched c s ∧ P s.1 :=
    fun s s' hr h => ⟨untouched_stable s s' hr h.1, hP _ _ hr.1.1 h.2⟩
  refine wp_perform_bind hstable ⟨hs, hPs⟩ ?_
  rintro ⟨d₁, tr₁⟩ ⟨h₁, hP₁⟩
  refine ⟨hop.opens d₁, ?_⟩
  rintro r ⟨d₂, tr₂⟩ ⟨hstep, htr₂⟩
  have hsame := hop.unchanged hstep
  dsimp only at hsame htr₂ hstep
  subst hsame htr₂
  exact ⟨anyone_same channel op r _, h r _ (h₁.still op r) hP₁ hstep⟩

theorem untouched_call {β : Type} {op : Op} {f : op.Resp → UowM β}
    {Q : Except GoError β → UnitOfWork → Data × List (Event Op.Resp Data) → Prop}
    {R : UnitOfWork → Data × List (Event Op.Resp Data) → Prop} {u : UnitOfWork}
    {s : Data × List (Event Op.Resp Data)} (hs : Untouched c s) (hop : op.Still)
    (h : ∀ r s', Untouched c s' → Data.Step op s'.1 r s'.1 →
      UowM.wp (anyone c channel).traced (f r) Q R u s') :
    UowM.wp (anyone c channel).traced (perform op >>= f) Q R u s :=
  untouched_bind (P := fun _ => True) (fun _ _ _ _ => trivial) hs trivial hop
    fun r s' hs' _ => h r s' hs'

structure Bare (u : UnitOfWork) : Prop where
  club : u.clubID = 0
  store : ∀ e, u.store e = none
  dbOps : u.dbOps = []

theorem Bare.holds {u : UnitOfWork} (h : Bare u) {creates : Bool} (hd : d.Sound c) :
    Holds c u.userID creates [] u d :=
  ⟨rfl, h.club, hd, by simp [h.store], by simp [h.dbOps], by simp⟩

/-- A `Login` that has its account: it acts for the user of the account from then on. -/
def Bound (c : Container) (ch : UInt64) (u : UnitOfWork)
    (s : Data × List (Event Op.Resp Data)) : Prop :=
  Holds c u.userID true [] u s.1 ∧ s.1.Owns c ch u.userID ∧ Tidy u.userID s.2

def Logged (c : Container) (ch : UInt64) (r : Except GoError (Ref × Bool)) (u : UnitOfWork)
    (s : Data × List (Event Op.Resp Data)) : Prop :=
  match r with
  | .ok p => Bound c ch u s ∧ u.Held .account p.1
  | .error _ => Tidy u.userID s.2

theorem insert_account {d : Data} (hd : d.Sound c) {m : Account} {k : UInt64}
    (hk : (d.db c.gameDB).Fresh .account k) :
    let d' := d.setDb c.gameDB
      ((d.db c.gameDB).insert .account (Row.setPrimaryKey (e := .account) k m))
    d.Grows d' ∧ d'.Sound c ∧ ConfinedTo k d d' := by
  have hgrow := Data.grows_setDb (Tables.prefix_insert (t := d.db c.gameDB)
    (m := Row.setPrimaryKey (e := .account) k m))
  refine ⟨hgrow, hd.setDb hgrow ((hd.keyed c.gameDB).insert hk), .setDb ?_⟩
  exact Tables.others_insert rfl rfl

theorem mem_insert_account (d : Data) (m : Row .account) :
    m ∈ ((d.setDb c.gameDB ((d.db c.gameDB).insert .account m)).db c.gameDB) .account := by
  rw [Data.setDb_db_self, Tables.insert_self]
  exact List.mem_append_right _ (List.mem_singleton.mpr rfl)

theorem Bare.created {u : UnitOfWork} (hu : Bare u) {creates : Bool} {d : Data} (hd : d.Sound c)
    {m : Account} {k : UInt64} (hk : (d.db c.gameDB).Fresh .account k) :
    Holds c k creates []
      (({ u with userID := k } : UnitOfWork).loadedOne .account (Row.setPrimaryKey k m))
      (d.setDb c.gameDB
        ((d.db c.gameDB).insert .account (Row.setPrimaryKey (e := .account) k m))) := by
  obtain ⟨-, hsound, -⟩ := insert_account hd hk (m := m)
  have hrow := mem_insert_account (c := c) d (Row.setPrimaryKey (e := .account) k m)
  have hbare : Bare { u with userID := k } := ⟨hu.club, hu.store, hu.dbOps⟩
  refine (hbare.holds hsound).loadedOne (hbare.store .account) ?_
  refine ⟨rfl, ⟨_, hrow, rfl⟩, fun m' hm' => ?_⟩
  rw [List.mem_singleton.mp hm']
  exact ⟨rfl, Or.inr ⟨c.gameDB, rfl, List.mem_map_of_mem hrow⟩⟩

theorem AccountService.new_eq (c : Container) (u : UnitOfWork) (m : Account) :
    (do
      let account ← new .account m
      createNow c .account account
      pure (account, true) : UowM (Ref × Bool)) u =
    .call (.create c.gameDB .account m) fun
      | none => .ret (.error driverError, { u with heap := (u.heap.alloc .account m).1 })
      | some k => .ret (.ok (u.heap.next, true),
          ({ u with userID := k } : UnitOfWork).loadedOne .account (Row.setPrimaryKey k m)) := by
  let u₁ : UnitOfWork := { u with heap := (u.heap.alloc .account m).1 }
  have hcell : u₁.heap.cell .account u.heap.next = m := u.heap.alloc_cell_self .account m
  have hcall : (do
      let account ← new .account m
      createNow c .account account
      pure (account, true) : UowM (Ref × Bool)) u =
      .call (.create c.gameDB .account (u₁.heap.cell .account u.heap.next)) fun
        | none => .ret (.error driverError, u₁)
        | some k => .ret (.ok (u.heap.next, true),
            { ((u₁.changed .account u.heap.next (Row.setPrimaryKey k)).setStore .account
                (.one u.heap.next)).marked .account u.heap.next with userID := k }) := by
    refine congrArg (Prog.call (Op.create c.gameDB .account _)) (funext fun r => ?_)
    cases r with
    | none => rfl
    | some k => rfl
  rw [hcall, hcell]
  refine congrArg (Prog.call (Op.create c.gameDB .account m)) (funext fun r => ?_)
  cases r with
  | none => rfl
  | some k =>
    have hheap : u₁.heap.set .account u.heap.next (Row.setPrimaryKey (e := .account) k m) =
        (u.heap.alloc .account (Row.setPrimaryKey (e := .account) k m)).1 := by
      simp [u₁, Heap.alloc, Heap.set]
    simp only [UnitOfWork.marked, entityNameOf, UnitOfWork.changed, hcell, hheap]
    rfl

theorem AccountService.new_wp {ch : UInt64} {u : UnitOfWork} {m : Account} (hu : Bare u)
    (hch : m.channelUID = ch) (hactive : 0 < m.isActive)
    {s : Data × List (Event Op.Resp Data)} (hs : Untouched c s) :
    UowM.wp (anyone c (some ch)).traced
      (do
        let account ← new .account m
        createNow c .account account
        pure (account, true))
      (Logged c ch) (fun u s => Tidy u.userID s.2) u s := by
  unfold UowM.wp
  rw [AccountService.new_eq]
  refine Setting.wp_call untouched_stable hs ?_
  rintro ⟨d₁, tr₁⟩ h₁
  refine ⟨⟨rfl, by rw [hch], hactive⟩, ?_⟩
  rintro r ⟨d₂, tr₂⟩ ⟨hstep, htr₂⟩
  dsimp only at hstep htr₂
  subst htr₂
  rcases hstep with ⟨rfl, rfl⟩ | ⟨k, ⟨hk, -⟩, rfl, rfl⟩
  · refine ⟨anyone_same (some ch) (.create c.gameDB .account m) none d₂, ?_⟩
    exact (h₁.still (.create c.gameDB .account m) none).tidy u.userID
  · obtain ⟨hgrows, hsound, hconfined⟩ := insert_account h₁.1 hk (m := m)
    refine ⟨⟨hgrows, fun _ => hsound, fun hne => absurd rfl (hne _ _)⟩, ⟨?_, ?_, ?_⟩, ?_⟩
    · exact hu.created h₁.1 hk
    · exact ⟨_, mem_insert_account d₁ _, rfl, hch, hactive⟩
    · intro e he
      rcases List.mem_append.mp he with he | he
      · exact h₁.tidy k e he
      · rw [List.mem_singleton.mp he]
        exact hconfined
    · exact ⟨.one u.heap.next, UnitOfWork.loadedOne_store _ .account _,
        List.mem_singleton.mpr rfl⟩

theorem lift_keeps {ch : UInt64} {β : Type} {m : UowM β} {Pre : UnitOfWork → Prop}
    {Post : β → UnitOfWork → Prop} {u : UnitOfWork} {s : Data × List (Event Op.Resp Data)}
    (hm : Keeps (tenant c u.userID true) (Holds c u.userID true) Pre m Post)
    (hs : Bound c ch u s) (hu : Pre u) :
    UowM.wp (anyone c (some ch)).traced m
      (fun r u' s' => Bound c ch u' s' ∧ ∀ b, r = .ok b → Post b u')
      (fun u' s' => Tidy u'.userID s'.2) u s := by
  refine Setting.wp_mono ?_ (lift_wp (fun _ => ⟨ch, rfl, hs.2.1⟩) (hm u s.1 hs.1 hu) hs.2.2)
  rintro (⟨r, u'⟩ | u') s' ⟨howns, hQ, htidy⟩
  · obtain ⟨hholds, -, hpost⟩ := hQ
    obtain ⟨ch', hch, ho⟩ := howns rfl
    cases hch
    have hid := hholds.user
    rw [← hid] at hholds ho htidy
    exact ⟨⟨hholds, ho, htidy⟩, hpost⟩
  · obtain ⟨X, hX⟩ := hQ
    have hid := hX.user
    rwa [← hid] at htidy

theorem untouched_step {op : Op} (hop : op.Still) {s : Data × List (Event Op.Resp Data)}
    (hs : Untouched c s) : (anyone c channel).traced.pre op s ∧
      ∀ r s', (anyone c channel).traced.step op s r s' →
        (anyone c channel).traced.guar op r s s' ∧ Untouched c s' := by
  refine ⟨hop.opens s.1, ?_⟩
  rintro r ⟨d₂, tr₂⟩ ⟨hstep, htr₂⟩
  have hsame := hop.unchanged hstep
  dsimp only at hsame htr₂
  subst hsame htr₂
  exact ⟨anyone_same channel op r _, hs.still op r⟩

theorem owns_of_findUserID {ch uid : UInt64}
    (h : (d.db c.gameDB).findUserID ch = some uid) : d.Owns c ch uid := by
  obtain ⟨a, ha, hid⟩ := Option.map_eq_some_iff.mp h
  have hcond := of_decide_eq_true (List.find?_some
    (p := fun a : Account => decide (a.channelUID = ch ∧ 0 < a.isActive)) ha)
  exact ⟨a, List.mem_of_find?_eq_some ha, hid, hcond.1, hcond.2⟩

theorem AccountService.login_wp {ch : UInt64} {deviceID : String} {u : UnitOfWork}
    (hu : Bare u) {s : Data × List (Event Op.Resp Data)} (hs : Untouched c s) :
    UowM.wp (anyone c (some ch)).traced (AccountService.login c ch deviceID) (Logged c ch)
      (fun u s => Tidy u.userID s.2) u s := by
  refine untouched_call hs trivial ?_
  intro reply s₁ hs₁ hstep
  cases reply with
  | none => exact hs₁.tidy _
  | some found =>
    cases found with
    | none =>
      refine untouched_call hs₁ trivial ?_
      intro now s₂ hs₂ _
      refine wp_bind (wp_mono ?_ ?_ (pickShard_wp untouched_stable
        (fun n _ => @untouched_step _ _ (.intN n) trivial _) hs₂))
      · rintro (err | shardID) u' s₃ ⟨rfl, hs₃⟩
        · exact hs₃.tidy _
        · have hactive : (0 : UInt8) < 1 := by decide
          exact AccountService.new_wp (m := ⟨0, ch, deviceID, 1, shardID, now, now⟩) hu rfl
            hactive hs₃
      · rintro u' s₃ hs₃
        exact hs₃.tidy _
    | some uid =>
      have hfound : (s₁.1.db c.gameDB).findUserID ch = some uid := by
        simpa [eq_comm] using hstep.2
      have hP : ∀ d d' : Data, d.Grows d' → d.Owns c ch uid → d'.Owns c ch uid :=
        fun _ _ h => h.owns
      refine untouched_bind hP hs₁ (owns_of_findUserID hfound) trivial ?_
      intro now s₂ hs₂ howns _
      have hbare : Bare { u with userID := uid } := ⟨hu.club, hu.store, hu.dbOps⟩
      have hbound : Bound c ch { u with userID := uid } s₂ :=
        ⟨hbare.holds hs₂.1, howns, hs₂.tidy uid⟩
      have hkeeps : Keeps (tenant c uid true) (Holds c uid true) (fun _ => True) _ _ :=
        AccountService.keeps_found holds_closed deviceID now
      refine wp_local rfl (wp_mono ?_ (fun _ _ h => h) (lift_keeps hkeeps hbound trivial))
      rintro (err | p) u' s' ⟨hbound', hpost⟩
      · exact hbound'.2.2
      · exact ⟨hbound', hpost p rfl⟩

theorem login_wp {body : Body} {u : UnitOfWork} (hu : Bare u)
    {s : Data × List (Event Op.Resp Data)} (hs : Untouched c s) :
    UowM.wp (anyone c (body.login.map LoginRequest.channelUid)).traced (login c body)
      (fun r u' s' => match r with
        | .ok m => ∃ ch, body.login.map LoginRequest.channelUid = some ch ∧ Bound c ch u' s' ∧
            Names m u'
        | .error _ => Tidy u'.userID s'.2)
      (fun u' s' => Tidy u'.userID s'.2) u s := by
  unfold login
  cases body.login with
  | none => exact hs.tidy _
  | some req =>
    dsimp only
    split_ifs
    · exact hs.tidy _
    · refine wp_bind (wp_mono ?_ (fun _ _ h => h) (AccountService.login_wp hu hs))
      rintro (err | p) u₁ s₁ h₁
      · exact h₁
      · have hkeeps : Keeps (tenant c u₁.userID true) (Holds c u₁.userID true) _ _ _ :=
          keeps_loginWith holds_closed holds_extends holds_signs p.1 p.2
        refine wp_mono ?_ (fun _ _ h => h) (lift_keeps hkeeps h₁.1 h₁.2)
        rintro (err | m) u₂ s₂ ⟨hbound, hpost⟩
        · exact hbound.2.2
        · exact ⟨_, rfl, hbound, hpost m rfl⟩

theorem settled_stable {r : Incoming} (o : Outcome UnitOfWork Reply) :
    (anyone c channel).traced.Stable (Settled c r o) := by
  rintro ⟨d, tr⟩ ⟨d', tr'⟩ ⟨hr, htr⟩ h
  dsimp only at htr
  subst htr
  exact ⟨h.1, fun ch rep res hch ho hbody => hr.1.owns (h.2 ch rep res hch ho hbody)⟩

theorem Tidy.still {uid : UInt64} (h : Tidy uid tr) (op : Op) (r : op.Resp) (d : Data) :
    Tidy uid (tr ++ [⟨op, r, d, d⟩]) := by
  intro e he
  rcases List.mem_append.mp he with he | he
  · exact h e he
  · rw [List.mem_singleton.mp he]
    exact .refl uid d

theorem respond_settled {r : Incoming} {action : UInt32} {code : Int32} {body : ResponseBody}
    {sync : Option SyncData} {u : Option UnitOfWork} {s : Data × List (Event Op.Resp Data)}
    (htidy : Tidy ((u.map UnitOfWork.userID).getD r.raw.userId) s.2)
    (hbody : ∀ res, body ≠ .message (.login res)) :
    (anyone c channel).traced.wp
      ((sendGameResponse action code body sync).bind fun res => .ret ⟨res, u⟩) (Settled c r) s := by
  rintro ⟨d₁, tr₁⟩ ⟨hr, htr⟩
  dsimp only at htr
  subst htr
  refine ⟨trivial, ?_⟩
  rintro t ⟨d₂, tr₂⟩ ⟨hs, htr₂⟩
  have hs : d₂ = d₁ := hs
  dsimp only at htr₂
  subst hs htr₂
  refine ⟨anyone_same channel .timeNow t _, htidy.still _ _ _, ?_⟩
  intro ch rep res hch ho hres
  cases ho
  exact absurd hres (hbody res)

theorem serve_login {marshals : Message → Bool} {store : DesignStore} {catalog : Catalog}
    {req : GameRequest} {def_ : ActionDef} (haction : req.action = actionLogin)
    (hdef : def_ = ⟨login c, true⟩)
    {s : Data × List (Event Op.Resp Data)} (hs : Untouched c s) :
    (anyone c (Raw.envelope req).channel).traced.wp
      (serve (server c marshals) catalog def_ req) (Settled c ⟨store, .envelope req⟩) s := by
  have hchannel : (Raw.envelope req).channel = req.body.login.map LoginRequest.channelUid := by
    simp [Raw.channel, haction]
  rw [hchannel]
  subst hdef
  refine Setting.wp_call untouched_stable hs ?_
  rintro ⟨d₁, tr₁⟩ hs₁
  refine ⟨trivial, ?_⟩
  rintro ⟨⟩ ⟨d₂, tr₂⟩ ⟨hstep, htr₂⟩
  have hstep : d₂ = d₁ := hstep
  dsimp only at htr₂
  subst hstep htr₂
  refine ⟨anyone_same none (.enter req.action req.userId) () d₂, ?_⟩
  have hbare : Bare (.new req.userId catalog) := ⟨rfl, fun _ => rfl, rfl⟩
  have hentered := hs₁.still (.enter req.action req.userId) ()
  refine Setting.wp_bind (Setting.wp_mono ?_ (login_wp hbare hentered))
  rintro (⟨err | result, u'⟩ | u') ⟨d', tr'⟩ h
  · exact respond_settled h (by simp)
  · obtain ⟨ch, hch, hbound, hnames⟩ := h
    have hnamed : ∀ res, result = .login res → res.userId = u'.userID := by
      obtain ⟨acc, res', rfl, hheld, hid⟩ := hnames
      rintro res ⟨⟩
      exact hid.trans (hbound.1.held hheld).2.2.2.1
    have hfinish : (tenant c u'.userID true).wp (finish (server c marshals) req.action result u')
        (fun o _ => Ended req.userId u'.userID
          (fun m => ∀ res, m = .login res → res.userId = u'.userID) o) d' :=
      finish_wp hbound.1 hnamed
    have hlift := lift_wp (fun _ => ⟨ch, hch, hbound.2.1⟩) hfinish hbound.2.2
    refine Setting.wp_mono ?_ hlift
    rintro o s' ⟨howns, hended, htidy⟩
    obtain ⟨ch', hch', ho⟩ := howns rfl
    refine ⟨?_, ?_⟩
    · have hid : endsAs req.userId o = u'.userID := hended.1
      change Tidy (endsAs req.userId o) s'.2
      rwa [hid]
    · intro ch₁ rep res hch₁ hrep hbody
      change (Raw.envelope req).channel = some ch₁ at hch₁
      rw [hchannel, hch'] at hch₁
      cases hch₁
      rw [hended.2 rep _ hrep hbody res rfl]
      exact ho
  · exact ⟨h, by simp⟩

theorem underUserLock_login {req : GameRequest} {store : DesignStore} {p : Call UnitOfWork Reply}
    {s : Data × List (Event Op.Resp Data)} (hs : Untouched c s)
    (hp : ∀ s, Untouched c s →
      (anyone c channel).traced.wp p (Settled c ⟨store, .envelope req⟩) s) :
    (anyone c channel).traced.wp (underUserLock req p) (Settled c ⟨store, .envelope req⟩) s := by
  unfold underUserLock
  split_ifs
  · exact hp s hs
  · have hsafe : (acquireUserLock req.userId : Call UnitOfWork (Option String)).Safe Op.Still :=
      safe_acquireUserLock.mono fun op h => (@still_of_acquire c req.userId true op h).1
    have hstill : ∀ d tr op r, Untouched c (d, tr) → Untouched c (d, tr ++ [⟨op, r, d, d⟩]) :=
      fun _ _ op r h => h.still op r
    refine Setting.wp_bind (Setting.wp_mono ?_ (still_traced untouched_stable hstill hsafe hs))
    rintro _ s₁ ⟨⟨token, rfl⟩, hs₁⟩
    cases token with
    | none => exact respond_settled (hs₁.tidy _) (by simp)
    | some token =>
      refine Setting.wp_ensure (Setting.wp_mono ?_ (hp s₁ hs₁))
      intro o s₂ hs₂
      refine Setting.wp_call (settled_stable o) hs₂ ?_
      intro s₃ hs₃
      refine ⟨trivial, ?_⟩
      rintro r ⟨d₄, tr₄⟩ ⟨hstep, htr₄⟩
      have hstep : d₄ = s₃.1 := hstep
      dsimp only at htr₄
      subst hstep htr₄
      refine ⟨anyone_same none (.lockRelease (.user req.userId) token) r _, ?_⟩
      cases o with
      | ret rep => exact ⟨hs₃.1.still _ _ _, hs₃.2⟩
      | raise u => exact ⟨hs₃.1.still _ _ _, hs₃.2⟩

end

/-- How every request ends, whatever the other requests do: all its changes are of rows and of
the cache key of the user it ends as. -/
theorem request_settles {c : Container} {marshals : Message → Bool} {r : Incoming} {d : Data}
    (hd : d.Sound c) :
    (anyone c r.raw.channel).traced.wp (r.program (server c marshals)) (Settled c r) (d, []) := by
  by_cases hlogin : r.raw.LogsIn
  · obtain ⟨store, raw⟩ := r
    cases raw with
    | unreadable => exact hlogin.elim
    | malformed => exact hlogin.elim
    | envelope req =>
      have hs : Untouched c (d, []) := ⟨hd, by simp⟩
      have haction : req.action = actionLogin := hlogin
      have hregistered : actionRegistry c req.action = some ⟨login c, true⟩ := by
        rw [haction]
        rfl
      simp only [Incoming.program, dispatch, server, hregistered]
      cases store.getByClientVersion req.clientVersion with
      | none => exact respond_settled (hs.tidy _) (by simp)
      | some catalog =>
        exact underUserLock_login hs fun s hs => serve_login haction rfl hs
  · refine Setting.wp_mono ?_ (lift_wp (by simp) (request_wp hlogin hd) (by simp [Tidy]))
    rintro o s ⟨-, hended, htidy⟩
    refine ⟨?_, ?_⟩
    · rw [hended.1]
      exact htidy
    · intro ch rep res hch
      obtain ⟨store, raw⟩ := r
      cases raw with
      | unreadable => cases hch
      | malformed => cases hch
      | envelope req =>
        have haction : ¬ req.action = actionLogin := hlogin
        simp [Raw.channel, haction] at hch

end FutureWas
