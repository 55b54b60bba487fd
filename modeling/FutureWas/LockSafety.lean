import FutureWas.Model.Locks

/-!
# The lock protocol

Any number of calls of `Acquire` and `Release`, on either lock, for any ids and with any tokens,
run against one Redis in any order; keys expire at any point. `lock_safety` says what holds of
every run: who can free a held lock, what an `Acquire` that returns has found, and that nobody
obtains a lock that is held.

The keys of two locks differ (`lockKey_injective`), so every command concerns one lock. The
commands of a call are those of its own program (`program_wp`), whatever the others do.
-/

set_option autoImplicit false

namespace FutureWas.Locks

open Effect

/-! ## Keys -/

theorem repr_injective {m n : ℕ} (h : m.repr = n.repr) : m = n := by
  have hdigits := congrArg String.toList h
  rw [Nat.toList_repr, Nat.toList_repr] at hdigits
  have hvalue := congrArg (fun digits => Nat.ofDigitChars 10 digits 0) hdigits
  rw [Nat.ofDigitChars_toDigits (by decide) (by decide),
    Nat.ofDigitChars_toDigits (by decide) (by decide)] at hvalue
  exact hvalue

theorem prefixed_injective {keyPrefix : String} {id id' : UInt64}
    (h : keyPrefix ++ id.toNat.repr = keyPrefix ++ id'.toNat.repr) : id = id' := by
  have hlist := congrArg String.toList h
  rw [String.toList_append, String.toList_append] at hlist
  have hrepr := String.toList_inj.mp (List.append_cancel_left hlist)
  exact UInt64.toNat_inj.mp (repr_injective hrepr)

theorem userLockKey_ne (userID clubID : UInt64) : userLockKey userID ≠ clubLockKey clubID := by
  intro h
  have hlist := congrArg (fun key => key.toList.take 10) h
  unfold userLockKey clubLockKey at hlist
  rw [String.toList_append, String.toList_append, List.take_left' (by decide),
    List.take_left' (by decide)] at hlist
  revert hlist
  decide

theorem lockKey_injective {k k' : LockKey} (h : lockKey k = lockKey k') : k = k' := by
  cases k with
  | user id =>
    cases k' with
    | user id' => rw [prefixed_injective h]
    | club id' => exact absurd h (userLockKey_ne id id')
  | club id =>
    cases k' with
    | user id' => exact absurd h.symm (userLockKey_ne id' id)
    | club id' => rw [prefixed_injective h]

/-! ## One command -/

section

variable {op : RedisOp} {r : op.Resp} {s s' : Redis} {key key' t t' : String}

theorem set_value_ne (h : key' ≠ key) : (s.set key t).value key' = s.value key' :=
  Function.update_of_ne h _ _

theorem set_value_self : (s.set key t).value key = some t := Function.update_self _ _ _

theorem del_value_ne (h : key' ≠ key) : (s.del key).value key' = s.value key' :=
  Function.update_of_ne h _ _

theorem del_value_self : (s.del key).value key = none := Function.update_self _ _ _

def Addresses (key : String) : RedisOp → Prop
  | .setArgs key' _ => key' = key
  | .releaseScript key' _ => key' = key
  | .newToken => True
  | .retryDelay => True

theorem step_cases (h : Redis.Step op s r s') : s'.value = s.value ∨
    (∃ key t, op = .setArgs key t ∧ s.value key = none ∧ s' = s.set key t) ∨
    ∃ key t, op = .releaseScript key t ∧ s.value key = some t ∧ s' = s.del key := by
  cases op with
  | newToken =>
    rcases h with ⟨-, rfl⟩ | ⟨t, -, -, rfl⟩
    · exact .inl rfl
    · exact .inl rfl
  | setArgs key t =>
    cases r with
    | ok => exact .inr (.inl ⟨key, t, rfl, h.1, h.2⟩)
    | nil => exact .inl (congrArg Redis.value h.2)
    | err =>
      rcases h with h | h
      · exact .inl (congrArg Redis.value h)
      · exact .inr (.inl ⟨key, t, rfl, h.1, h.2⟩)
  | retryDelay => exact .inl (congrArg Redis.value h)
  | releaseScript key t =>
    rcases h with h | h
    · unfold Redis.release at h
      split_ifs at h with hheld
      · exact .inr (.inr ⟨key, t, rfl, hheld, h⟩)
      · exact .inl (congrArg Redis.value h)
    · exact .inl (congrArg Redis.value h.2)

theorem step_other (h : Redis.Step op s r s') (ha : Addresses key op) (hne : key' ≠ key) :
    s'.value key' = s.value key' := by
  rcases step_cases h with hsame | ⟨k, t, rfl, -, rfl⟩ | ⟨k, t, rfl, -, rfl⟩
  · rw [hsame]
  · cases ha
    exact set_value_ne hne
  · cases ha
    exact del_value_ne hne

theorem step_freed (h : Redis.Step op s r s') (hheld : s.value key = some t)
    (hlost : s'.value key ≠ some t) : s'.value key = none ∧ op = .releaseScript key t := by
  rcases step_cases h with hsame | ⟨k, t', rfl, hfree, rfl⟩ | ⟨k, t', rfl, htoken, rfl⟩
  · rw [hsame] at hlost
    exact absurd hheld hlost
  · have hne : key ≠ k := by
      intro heq
      rw [heq, hfree] at hheld
      cases hheld
    rw [set_value_ne hne] at hlost
    exact absurd hheld hlost
  · by_cases hk : key = k
    · subst hk
      rw [hheld] at htoken
      cases htoken
      exact ⟨del_value_self, rfl⟩
    · rw [del_value_ne hk] at hlost
      exact absurd hheld hlost

theorem release_other {replied : Bool} (h : Redis.Step (.releaseScript key t') s replied s')
    (hheld : s.value key = some t) (hne : t' ≠ t) : s' = s := by
  have hnot : s.value key ≠ some t' := by
    rw [hheld]
    exact fun heq => hne (Option.some_inj.mp heq).symm
  rcases h with h | h
  · exact h.trans (if_neg hnot)
  · exact h.2

end

/-! ## One call -/

def Sends (call : LockCall) : RedisOp → Prop
  | .newToken => call = .acquire call.key
  | .retryDelay => call = .acquire call.key
  | .setArgs key _ => call = .acquire call.key ∧ key = lockKey call.key
  | .releaseScript key t => call = .release call.key t ∧ key = lockKey call.key

theorem Sends.addresses {call : LockCall} {op : RedisOp} (h : Sends call op) :
    Addresses (lockKey call.key) op := by
  cases op with
  | newToken => trivial
  | retryDelay => trivial
  | setArgs key t => exact h.2
  | releaseScript key t => exact h.2

def callSetting (call : LockCall) : Setting RedisOp.Resp Redis :=
  { Setting.crowded Redis.Step with pre := fun op _ => Sends call op }

/-- The token `t` has been handed out to the call, and set at its key. -/
def Obtained (key : LockKey) (t : String) (events : List (Event RedisOp.Resp Redis)) : Prop :=
  (∃ s s', ⟨.newToken, some t, s, s'⟩ ∈ events) ∧
    ∃ s s', ⟨.setArgs (lockKey key) t, .ok, s, s'⟩ ∈ events

def Answers (call : LockCall) (o : Outcome Empty Answer)
    (p : Redis × List (Event RedisOp.Resp Redis)) : Prop :=
  ∀ t, o = .ret (.acquired (.ok t)) → Obtained call.key t p.2

theorem acquireLoop_wp {key : LockKey} {t : String} {errTimeout : GoError} (retries : ℕ)
    {s : Redis} {events : List (Event RedisOp.Resp Redis)}
    (hissued : ∃ s s', ⟨.newToken, some t, s, s'⟩ ∈ events) :
    (callSetting (.acquire key)).traced.wp
      ((acquireLoop (lockKey key) t errTimeout retries).bind fun r => .ret (.acquired r))
      (Answers (.acquire key)) (s, events) := by
  induction retries generalizing s events with
  | zero =>
    intro t' h
    cases h
  | succ retries ih =>
    intro w hw
    refine ⟨⟨rfl, rfl⟩, ?_⟩
    intro r w₁ hstep
    refine ⟨trivial, ?_⟩
    have hevents : events ⊆ w₁.2 := by
      rw [hstep.2, hw.2]
      exact List.subset_append_left _ _
    have hissued₁ : ∃ s s', ⟨.newToken, some t, s, s'⟩ ∈ w₁.2 := by
      obtain ⟨s, s', hmem⟩ := hissued
      exact ⟨s, s', hevents hmem⟩
    cases r with
    | ok =>
      intro t' h
      cases h
      refine ⟨hissued₁, w.1, w₁.1, ?_⟩
      rw [hstep.2]
      exact List.mem_append_right _ (List.mem_singleton.mpr rfl)
    | err =>
      intro t' h
      cases h
    | nil =>
      intro w₂ hw₂
      refine ⟨rfl, ?_⟩
      intro done w₃ hstep₃
      refine ⟨trivial, ?_⟩
      cases done with
      | true =>
        intro t' h
        cases h
      | false =>
        refine ih ?_
        obtain ⟨s, s', hmem⟩ := hissued₁
        refine ⟨s, s', ?_⟩
        rw [hstep₃.2, hw₂.2]
        exact List.mem_append_left _ hmem

theorem acquireKey_wp {key : LockKey} {errTimeout : GoError} (retries : ℕ) (s : Redis) :
    (callSetting (.acquire key)).traced.wp
      ((acquireKey (lockKey key) errTimeout retries).bind fun r => .ret (.acquired r))
      (Answers (.acquire key)) (s, []) := by
  intro w hw
  refine ⟨rfl, ?_⟩
  intro r w₁ hstep
  refine ⟨trivial, ?_⟩
  cases r with
  | none =>
    intro t h
    cases h
  | some t =>
    apply acquireLoop_wp
    refine ⟨w.1, w₁.1, ?_⟩
    rw [hstep.2]
    exact List.mem_append_right _ (List.mem_singleton.mpr rfl)

theorem releaseKey_wp {key : LockKey} {t : String} (s : Redis) :
    (callSetting (.release key t)).traced.wp
      ((releaseKey (lockKey key) t).bind fun r => .ret (.released r))
      (Answers (.release key t)) (s, []) := by
  intro w hw
  refine ⟨⟨rfl, rfl⟩, ?_⟩
  intro r w₁ hstep
  refine ⟨trivial, ?_⟩
  intro t' h
  cases h

theorem program_wp (call : LockCall) (s : Redis) :
    (callSetting call).traced.wp call.program (Answers call) (s, []) := by
  cases call with
  | acquire key =>
    cases key with
    | user id => exact acquireKey_wp _ s
    | club id => exact acquireKey_wp _ s
  | release key t =>
    cases key with
    | user id => exact releaseKey_wp s
    | club id => exact releaseKey_wp s

/-! ## All runs -/

section

variable {ι : Type}

/-- The lock is taken from the holder of `t` by a `Release` with `t`, or it expires. -/
def Frees (calls : ι → LockCall) (key : LockKey) (t : String) :
    Occurrence ι RedisOp.Resp Redis → Prop
  | .act i _ => calls i = .release key t
  | .env s s' => s' = s.del (lockKey key)

def Takes (key : LockKey) (t : String) (e : Event RedisOp.Resp Redis) : Prop :=
  ∃ s s', e = ⟨.setArgs (lockKey key) t, .ok, s, s'⟩

structure LockSafety (calls : ι → LockCall) (tr : List (Occurrence ι RedisOp.Resp Redis))
    (cfg : Config ι RedisOp.Resp Empty Answer Redis) : Prop where
  freed : ∀ i e key t, .act i e ∈ tr → e.before.lock key = some t →
    e.after.lock key ≠ some t → e.after.lock key = none ∧ calls i = .release key t
  expired : ∀ s s' key t, .env s s' ∈ tr → s.lock key = some t →
    s'.lock key ≠ some t → s'.lock key = none ∧ s' = s.del (lockKey key)
  refused : ∀ i e key t t', .act i e ∈ tr → calls i = .release key t' →
    e.before.lock key = some t → t' ≠ t → e.after = e.before
  returned : ∀ i key t, calls i = .acquire key → cfg.procs i = .ret (.acquired (.ok t)) →
    ∃ e, .act i e ∈ tr ∧ Takes key t e ∧ e.before.lock key = none ∧ e.after.lock key = some t
  distinct : ∀ i j t, cfg.procs i = .ret (.acquired (.ok t)) →
    cfg.procs j = .ret (.acquired (.ok t)) → i = j
  exclusive : ∀ before i e between j e' after key t t',
    tr = before ++ .act i e :: (between ++ .act j e' :: after) → Takes key t e →
    Takes key t' e' → ∃ o ∈ between, Frees calls key t o
  apart : ∀ i e key, .act i e ∈ tr → key ≠ (calls i).key →
    e.after.lock key = e.before.lock key

variable [DecidableEq ι] {calls : ι → LockCall} {s : Redis}
  {tr : List (Occurrence ι RedisOp.Resp Redis)} {cfg : Config ι RedisOp.Resp Empty Answer Redis}

theorem calls_sound (h : Exec Redis.Step Redis.Expires (clients calls s) tr cfg) :
    (∀ i t, cfg.procs i = .ret (.acquired (.ok t)) → Obtained (calls i).key t (own i tr)) ∧
      ∀ i e, .act i e ∈ tr → Sends (calls i) e.op := by
  have hstable : ∀ i o, (callSetting (calls i)).traced.Stable (Answers (calls i) o) := by
    intro i o p p' hrely hp t ho
    rw [hrely.2]
    exact hp t ho
  obtain ⟨hwp, hsent⟩ := h.sound (S := fun i => callSetting (calls i))
    (Q := fun i => Answers (calls i)) (fun _ _ _ _ _ hs => hs) (fun _ _ _ _ => trivial)
    (fun _ _ _ _ _ _ _ _ _ => trivial) hstable fun i => program_wp (calls i) s
  refine ⟨?_, fun i e he => (hsent i e he).1⟩
  intro i t hi
  have hanswer := hwp i
  rw [hi] at hanswer
  exact hanswer t rfl

def tokenOf : (op : RedisOp) → op.Resp → Option String
  | .newToken, t => t
  | _, _ => none

theorem step_issued {op : RedisOp} {s s' : Redis} {r : op.Resp} (h : Redis.Step op s r s') :
    (∀ t ∈ s.issued, t ∈ s'.issued) ∧
      ∀ t, tokenOf op r = some t → t ∉ s.issued ∧ t ∈ s'.issued := by
  cases op with
  | newToken =>
    rcases h with ⟨rfl, rfl⟩ | ⟨t, hfresh, rfl, rfl⟩
    · exact ⟨fun _ ht => ht, fun _ ht => by cases ht⟩
    · refine ⟨fun _ ht => List.mem_cons_of_mem _ ht, ?_⟩
      intro t' ht'
      cases ht'
      exact ⟨hfresh, List.mem_cons_self⟩
  | setArgs key t =>
    have hsame : s'.issued = s.issued := by
      cases r with
      | ok =>
        rw [h.2]
        rfl
      | nil => rw [h.2]
      | err =>
        rcases h with rfl | ⟨-, rfl⟩
        · rfl
        · rfl
    exact ⟨fun _ ht => hsame ▸ ht, fun _ ht => by cases ht⟩
  | retryDelay =>
    cases h
    exact ⟨fun _ ht => ht, fun _ ht => by cases ht⟩
  | releaseScript key t =>
    have hrelease : (s.release key t).issued = s.issued := by
      unfold Redis.release
      split_ifs
      · rfl
      · rfl
    refine ⟨?_, fun _ ht => by cases ht⟩
    rcases h with rfl | ⟨-, rfl⟩
    · exact fun _ ht => hrelease ▸ ht
    · exact fun _ ht => ht

theorem tokens_distinct (h : Exec Redis.Step Redis.Expires (clients calls s) tr cfg) {i j : ι}
    {t : String} (hi : cfg.procs i = .ret (.acquired (.ok t)))
    (hj : cfg.procs j = .ret (.acquired (.ok t))) : i = j := by
  have hfresh : ∀ (op : RedisOp) s r s', Redis.Step op s r s' → ∀ t, tokenOf op r = some t →
      ¬ t ∈ s.issued ∧ t ∈ s'.issued := fun _ _ _ _ hs => (step_issued hs).2
  have henv : ∀ s s', Redis.Expires s s' → ∀ t, t ∈ s.issued → t ∈ s'.issued := by
    intro s s' he t ht
    obtain ⟨key, rfl⟩ := he
    exact ht
  obtain ⟨hnodup, -⟩ := h.labels_fresh hfresh (fun _ _ _ _ hs => (step_issued hs).1) henv
  have hgiven : ∀ i, cfg.procs i = .ret (.acquired (.ok t)) → (i, t) ∈ labels tokenOf tr := by
    intro i hi
    obtain ⟨⟨s₁, s₂, hmem⟩, -⟩ := (calls_sound h).1 i t hi
    exact mem_labels (mem_own.mp hmem) rfl
  exact congrArg Prod.fst (List.inj_on_of_nodup_map hnodup (hgiven i hi) (hgiven j hj) rfl)

omit [DecidableEq ι] in
theorem freed_by_release {i : ι} {op : RedisOp} {r : op.Resp} {s s' : Redis} {key : LockKey}
    {t : String} (hstep : Redis.Step op s r s') (hsent : Sends (calls i) op)
    (hheld : s.lock key = some t) (hlost : s'.lock key ≠ some t) :
    s'.lock key = none ∧ calls i = .release key t := by
  obtain ⟨hfree, hop⟩ := step_freed hstep hheld hlost
  rw [hop] at hsent
  have hkey : key = (calls i).key := lockKey_injective hsent.2
  exact ⟨hfree, hkey ▸ hsent.1⟩

theorem freed_by_expiry {s s' : Redis} {key : LockKey} {t : String} (h : Redis.Expires s s')
    (hheld : s.lock key = some t) (hlost : s'.lock key ≠ some t) :
    s'.lock key = none ∧ s' = s.del (lockKey key) := by
  obtain ⟨key', rfl⟩ := h
  by_cases hkey : lockKey key = key'
  · rw [← hkey]
    exact ⟨del_value_self, rfl⟩
  · have hsame : (s.del key').lock key = s.lock key := del_value_ne hkey
    rw [hsame] at hlost
    exact absurd hheld hlost

omit [DecidableEq ι] in
theorem released_other {i : ι} {op : RedisOp} {r : op.Resp} {s s' : Redis} {key : LockKey}
    {t t' : String} (hstep : Redis.Step op s r s') (hsent : Sends (calls i) op)
    (hcall : calls i = .release key t') (hheld : s.lock key = some t) (hne : t' ≠ t) : s' = s := by
  rw [hcall] at hsent
  cases op with
  | newToken => cases hsent
  | setArgs key' t₁ => cases hsent.1
  | retryDelay => cases hsent
  | releaseScript key' t₁ =>
    obtain ⟨hcall', hkey⟩ := hsent
    cases hcall'
    rw [hkey] at hstep
    exact release_other hstep hheld hne

theorem stays_held {c c' : Config ι RedisOp.Resp Empty Answer Redis} {key : LockKey} {t : String}
    (h : Exec Redis.Step Redis.Expires c tr c') (hheld : c.world.lock key = some t)
    (hsent : ∀ i e, .act i e ∈ tr → Sends (calls i) e.op)
    (hnone : ∀ o ∈ tr, ¬ Frees calls key t o) : c'.world.lock key = some t := by
  induction h with
  | start => exact hheld
  | @act tr c₁ i op k r s' _ _ hs ih =>
    have hbefore := ih (fun j e he => hsent j e (List.mem_append_left _ he))
      fun o ho => hnone o (List.mem_append_left _ ho)
    have hlast : Occurrence.act i ⟨op, r, c₁.world, s'⟩ ∈ tr ++ [.act i ⟨op, r, c₁.world, s'⟩] :=
      List.mem_append_right _ (List.mem_singleton.mpr rfl)
    by_contra hlost
    exact hnone _ hlast (freed_by_release hs (hsent i _ hlast) hbefore hlost).2
  | @env tr c₁ s' _ he ih =>
    have hbefore := ih (fun j e he => hsent j e (List.mem_append_left _ he))
      fun o ho => hnone o (List.mem_append_left _ ho)
    have hlast : Occurrence.env c₁.world s' ∈ tr ++ [.env c₁.world s'] :=
      List.mem_append_right _ (List.mem_singleton.mpr rfl)
    by_contra hlost
    exact hnone _ hlast (freed_by_expiry he hbefore hlost).2

omit [DecidableEq ι] in
theorem takes_step {key : LockKey} {t : String} {e : Event RedisOp.Resp Redis}
    (h : Takes key t e) (hstep : Redis.Step e.op e.before e.resp e.after) :
    e.before.lock key = none ∧ e.after.lock key = some t := by
  obtain ⟨s, s', rfl⟩ := h
  obtain ⟨hfree, hset⟩ := hstep
  refine ⟨hfree, ?_⟩
  dsimp only at hset ⊢
  rw [hset]
  exact set_value_self

theorem exclusive (h : Exec Redis.Step Redis.Expires (clients calls s) tr cfg)
    {before between after : List (Occurrence ι RedisOp.Resp Redis)} {i j : ι}
    {e e' : Event RedisOp.Resp Redis} {key : LockKey} {t t' : String}
    (htr : tr = before ++ .act i e :: (between ++ .act j e' :: after)) (he : Takes key t e)
    (he' : Takes key t' e') : ∃ o ∈ between, Frees calls key t o := by
  obtain ⟨-, hsent⟩ := calls_sound h
  rw [htr] at h hsent
  obtain ⟨c₁, -, hrest⟩ := h.split
  obtain ⟨k, -, -, hstep, hrest⟩ := hrest.head_act
  obtain ⟨c₂, hbetween, hrest⟩ := hrest.split
  obtain ⟨k', -, hworld, hstep', -⟩ := hrest.head_act
  by_contra hnone
  have hsent' : ∀ l e₁, .act l e₁ ∈ between → Sends (calls l) e₁.op := by
    intro l e₁ he₁
    apply hsent l e₁
    exact List.mem_append_right _ (List.mem_cons_of_mem _ (List.mem_append_left _ he₁))
  have hkept : ∀ o ∈ between, ¬ Frees calls key t o := fun o ho hfrees => hnone ⟨o, ho, hfrees⟩
  have hstays := stays_held hbetween (takes_step he hstep).2 hsent' hkept
  rw [hworld, (takes_step he' hstep').1] at hstays
  cases hstays

/-- Safety of the two locks, in every run. -/
theorem lock_safety (h : Exec Redis.Step Redis.Expires (clients calls s) tr cfg) :
    LockSafety calls tr cfg := by
  obtain ⟨hanswers, hsent⟩ := calls_sound h
  refine ⟨?_, ?_, ?_, ?_, ?_, ?_, ?_⟩
  · intro i e key t he hheld hlost
    exact freed_by_release (h.step_of_mem he) (hsent i e he) hheld hlost
  · intro s s' key t he hheld hlost
    exact freed_by_expiry (h.env_of_mem he) hheld hlost
  · intro i e key t t' he hcall hheld hne
    exact released_other (h.step_of_mem he) (hsent i e he) hcall hheld hne
  · intro i key t hcall hreturned
    obtain ⟨-, s₁, s₂, hmem⟩ := hanswers i t hreturned
    rw [hcall] at hmem
    have he := mem_own.mp hmem
    have htakes : Takes key t ⟨.setArgs (lockKey key) t, .ok, s₁, s₂⟩ := ⟨s₁, s₂, rfl⟩
    exact ⟨_, he, htakes, takes_step htakes (h.step_of_mem he)⟩
  · intro i j t hi hj
    exact tokens_distinct h hi hj
  · intro before i e between j e' after key t t' htr he he'
    exact exclusive h htr he he'
  · intro i e key he hne
    apply step_other (h.step_of_mem he) (hsent i e he).addresses
    exact fun heq => hne (lockKey_injective heq)

end

/-- The calls of two clients that want one lock, and the release of the first, which is late. -/
inductive Contender
  | first
  | second
  | late
  deriving DecidableEq

def contending : Contender → LockCall
  | .first => .acquire (.user 1)
  | .second => .acquire (.user 1)
  | .late => .release (.user 1) "a"

theorem lock_safety_contended : ∃ tr cfg, cfg.procs .first = .ret (.acquired (.ok "a")) ∧
    cfg.procs .second = .ret (.acquired (.ok "b")) ∧
    cfg.procs .late = .ret (.released (.ok ())) ∧ cfg.world.lock (.user 1) = some "b" ∧
    LockSafety contending tr cfg := by
  let s₀ : Redis := ⟨fun _ => none, []⟩
  let s₁ : Redis := ⟨fun _ => none, ["a"]⟩
  let s₂ : Redis := ⟨fun _ => none, ["b", "a"]⟩
  let s₃ : Redis := s₂.set (userLockKey 1) "a"
  let s₄ : Redis := s₃.del (userLockKey 1)
  let s₅ : Redis := s₄.set (userLockKey 1) "b"
  have hissue₁ : Redis.Step .newToken s₀ (some "a") s₁ := .inr ⟨"a", List.not_mem_nil, rfl, rfl⟩
  have hissue₂ : Redis.Step .newToken s₁ (some "b") s₂ := .inr ⟨"b", by decide, rfl, rfl⟩
  have hset₁ : Redis.Step (.setArgs (userLockKey 1) "a") s₂ .ok s₃ := ⟨rfl, rfl⟩
  have hheld : Redis.Step (.setArgs (userLockKey 1) "b") s₃ .nil s₃ := by
    refine ⟨?_, rfl⟩
    rw [set_value_self]
    exact Option.some_ne_none "a"
  have hwait : Redis.Step .retryDelay s₄ false s₄ := rfl
  have hexpire : Redis.Expires s₃ s₄ := ⟨userLockKey 1, rfl⟩
  have hset₂ : Redis.Step (.setArgs (userLockKey 1) "b") s₄ .ok s₅ :=
    ⟨del_value_self, rfl⟩
  have hkept : s₅.release (userLockKey 1) "a" = s₅ := by
    unfold Redis.release
    rw [set_value_self, if_neg (by decide)]
  have hlate : Redis.Step (.releaseScript (userLockKey 1) "a") s₅ true s₅ := .inl hkept.symm
  have htaken : Exec Redis.Step Redis.Expires (clients contending s₀) _ _ :=
    .act (i := .first) (.act (i := .second) (.act (i := .first) .start rfl hissue₁) rfl hissue₂) rfl
      hset₁
  have hexpired : Exec Redis.Step Redis.Expires (clients contending s₀) _ _ :=
    .act (i := .second) (.env (.act (i := .second) htaken rfl hheld) hexpire) rfl hwait
  have hrun : Exec Redis.Step Redis.Expires (clients contending s₀) _ _ :=
    .act (i := .late) (.act (i := .second) hexpired rfl hset₂) rfl hlate
  have hlock : s₅.lock (.user 1) = some "b" := set_value_self
  exact ⟨_, _, rfl, rfl, rfl, by exact hlock, lock_safety hrun⟩

/-! ## The locks of `World` -/

def lockReply : SetReply → LockReply
  | .ok => .acquired
  | .nil => .held
  | .err => .failed

section

variable {s s' : Redis} {w : World} {key : LockKey} {t : String}

/-- A `SET` whose reply is not lost is an attempt at the lock. -/
theorem lockAcquire_of_setArgs {r : SetReply} (hw : w.lock = s.lock)
    (h : Redis.Step (.setArgs (lockKey key) t) s r s') (hlost : r = .err → s' = s) :
    ∃ w', World.Step (.lockAcquire key t) w (lockReply r) w' ∧ w'.lock = s'.lock := by
  cases r with
  | ok =>
    obtain ⟨hfree, rfl⟩ := h
    have hfree : w.lock key = none := (congrFun hw key).trans hfree
    refine ⟨{ w with lock := Function.update w.lock key (some t) }, ⟨{}, ?_⟩, ?_⟩
    · simp [World.exec, hfree, lockReply]
    · funext key'
      by_cases hkey : key' = key
      · rw [hkey]
        exact (Function.update_self _ _ _).trans set_value_self.symm
      · have hne : lockKey key' ≠ lockKey key := fun heq => hkey (lockKey_injective heq)
        exact (Function.update_of_ne hkey _ _).trans
          ((congrFun hw key').trans (set_value_ne hne).symm)
  | nil =>
    obtain ⟨hheld, rfl⟩ := h
    have hheld : w.lock key ≠ none := fun hfree => hheld ((congrFun hw key).symm.trans hfree)
    exact ⟨w, ⟨{}, by simp [World.exec, hheld, lockReply]⟩, hw⟩
  | err => exact ⟨w, ⟨{ fails := true }, rfl⟩, (hlost rfl).symm ▸ hw⟩

theorem lockRelease_of_releaseScript {replied : Bool} (hw : w.lock = s.lock)
    (h : Redis.Step (.releaseScript (lockKey key) t) s replied s')
    (hlost : replied = false → s' = s) :
    ∃ w', World.Step (.lockRelease key t) w replied w' ∧ w'.lock = s'.lock := by
  cases replied with
  | false => exact ⟨w, ⟨{ fails := true }, rfl⟩, (hlost rfl).symm ▸ hw⟩
  | true =>
    have hs' : s' = s.release (lockKey key) t := by
      rcases h with h | ⟨hfalse, -⟩
      · exact h
      · cases hfalse
    subst hs'
    by_cases hheld : s.value (lockKey key) = some t
    · have hheld' : w.lock key = some t := (congrFun hw key).trans hheld
      refine ⟨{ w with lock := Function.update w.lock key none }, ⟨{}, ?_⟩, ?_⟩
      · simp [World.exec, hheld']
      · unfold Redis.release
        rw [if_pos hheld]
        funext key'
        by_cases hkey : key' = key
        · rw [hkey]
          exact (Function.update_self _ _ _).trans del_value_self.symm
        · have hne : lockKey key' ≠ lockKey key := fun heq => hkey (lockKey_injective heq)
          exact (Function.update_of_ne hkey _ _).trans
            ((congrFun hw key').trans (del_value_ne hne).symm)
    · have hheld' : w.lock key ≠ some t := fun heq => hheld ((congrFun hw key).symm.trans heq)
      refine ⟨w, ⟨{}, ?_⟩, ?_⟩
      · simp [World.exec, hheld']
      · unfold Redis.release
        rw [if_neg hheld]
        exact hw

end

end FutureWas.Locks
