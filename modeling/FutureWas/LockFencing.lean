import FutureWas.Model.Sample
import FutureWas.UowRules

/-!
# The user lock

A request with a user id writes only while it holds the lock of that user under a token of
its own (`lockMonitor`, followed by `dispatch`). Tokens are never handed out twice, so only
its holder, or the expiry of the key, frees a lock. Between an acquisition and the next one
without an expiry the first holder has therefore released the lock, after which it issues no
call: `fenced_of_kept`.

The key expires after ten seconds and nothing renews it or looks at it when a unit of work
commits, so with an expiry in between the second request can acquire the lock while the
first still commits: `not_fenced`.
-/

set_option autoImplicit false

namespace FutureWas.LockFencing

open Effect

def writes : Op → Bool
  | .create _ _ _ | .transaction _ _ _ => true
  | .cacheSet _ _ _ | .cacheSetMulti _ _ _ | .cacheDeleteAll _ _ => true
  | _ => false

/-! ## The protocol of one request -/

inductive Phase
  | lockFree
  | outside
  | issued (token : String)
  | holding (token : String)
  | left

def allows (userID : UInt64) : Phase → Op → Prop
  | .lockFree, op => (∀ k t, op ≠ .lockAcquire k t) ∧ ∀ k t, op ≠ .lockRelease k t
  | .outside, op => op = .newToken ∨ op = .timeNow ∨ ∃ id t, op = .sessionVerify id t
  | .issued t, op => op = .lockAcquire (.user userID) t ∨ op = .lockWait ∨ op = .timeNow
  | .holding t, op =>
    (∀ k t', op ≠ .lockAcquire k t') ∧ ∀ k t', op = .lockRelease k t' → t' = t
  | .left, _ => False

def next : Phase → (op : Op) → op.Resp → Phase
  | .outside, .newToken, some t => .issued t
  | .issued t, .lockAcquire _ _, .acquired => .holding t
  | .holding _, .lockRelease _ _, _ => .left
  | s, _, _ => s

def lockMonitor (userID : UInt64) : Monitor Op.Resp := ⟨Phase, allows userID, next⟩

def start (userID : UInt64) : Phase := if userID = 0 then .lockFree else .outside

section

variable {userID : UInt64}

theorem lockFree_of_ofServe {op : Op} (h : op.OfServe) : allows userID .lockFree op := by
  constructor <;> rintro k t rfl <;> exact h

theorem holding_of_ofServe {t : String} {op : Op} (h : op.OfServe) :
    allows userID (.holding t) op := by
  constructor <;> rintro k t rfl <;> exact h.elim

theorem next_of_ofServe {t : String} {op : Op} (r : op.Resp) (h : op.OfServe) :
    next (.holding t) op r = .holding t := by
  cases op <;> first | rfl | exact h.elim

theorem refuse_follows {action : UInt32} {code : Int32} {message : String} {s : Phase}
    (h : allows userID s .timeNow) :
    (lockMonitor userID).setting.wp (refuse action code message) (fun _ _ => True) s :=
  Monitor.wp_call.mpr ⟨h, fun _ => trivial⟩

theorem acquireLoop_follows (t : String) (retries : ℕ) :
    (lockMonitor userID).setting.wp
      (acquireLoop (.user userID) t retries : Call UnitOfWork (Option String))
      (fun o s => o = .ret (some t) ∧ s = .holding t ∨ o = .ret none ∧ s = .issued t)
      (.issued t) := by
  induction retries with
  | zero => exact Or.inr ⟨rfl, rfl⟩
  | succ retries ih =>
    refine Monitor.wp_call.mpr ⟨Or.inl rfl, ?_⟩
    rintro (_ | _ | _)
    · exact Or.inl ⟨rfl, rfl⟩
    · refine Monitor.wp_call.mpr ⟨Or.inr (Or.inl rfl), ?_⟩
      rintro (_ | _)
      · exact ih
      · exact Or.inr ⟨rfl, rfl⟩
    · exact Or.inr ⟨rfl, rfl⟩

theorem underUserLock_follows {req : GameRequest} (hreq : req.userId = userID)
    {p : Call UnitOfWork Reply} (hp : p.Uses Op.OfServe) :
    (lockMonitor userID).setting.wp (underUserLock req p) (fun _ _ => True) (start userID) := by
  subst hreq
  unfold underUserLock start
  split_ifs with h0
  · have hs : ∀ op r, op.OfServe → next .lockFree op r = .lockFree := fun op r _ => by
      cases op <;> rfl
    have hfree : ∀ op, op.OfServe → allows req.userId .lockFree op :=
      fun _ => lockFree_of_ofServe
    have hbody := Monitor.wp_of_uses (m := lockMonitor req.userId) (s := Phase.lockFree)
      hfree hs hp
    exact Setting.wp_mono (fun _ _ _ => trivial) hbody
  · refine Monitor.wp_call.mpr ⟨Or.inl rfl, ?_⟩
    rintro (_ | t)
    · exact refuse_follows (Or.inr (Or.inl rfl))
    · refine Setting.wp_bind (Setting.wp_mono ?_ (acquireLoop_follows t _))
      rintro o s (⟨rfl, rfl⟩ | ⟨rfl, rfl⟩)
      · have hbusy : ∀ op, op.OfServe → allows req.userId (.holding t) op :=
          fun _ => holding_of_ofServe
        have hbody := Monitor.wp_of_uses (m := lockMonitor req.userId) (s := Phase.holding t)
          hbusy (fun _ => next_of_ofServe) hp
        refine Setting.wp_ensure (Setting.wp_mono ?_ hbody)
        rintro o s rfl
        refine Monitor.wp_call.mpr ⟨⟨by simp, ?_⟩, fun _ => ?_⟩
        · rintro k t' h
          cases h; rfl
        · cases o <;> trivial
      · exact refuse_follows (Or.inr (Or.inr rfl))

theorem start_allows {op : Op} (h : op = .timeNow ∨ ∃ id t, op = .sessionVerify id t) :
    allows userID (start userID) op := by
  unfold start
  split_ifs
  · rcases h with rfl | ⟨id, t, rfl⟩ <;> exact ⟨by simp, by simp⟩
  · rcases h with rfl | ⟨id, t, rfl⟩
    · exact Or.inr (Or.inl rfl)
    · exact Or.inr (Or.inr ⟨id, t, rfl⟩)

theorem dispatch_follows {c : Container} {marshals : Message → Bool} (r : Incoming) :
    (lockMonitor r.raw.userId).setting.wp (r.program (server c marshals)) (fun _ _ => True)
      (start r.raw.userId) := by
  obtain ⟨store, raw⟩ := r
  have hrefuse : ∀ id action code message, (lockMonitor id).setting.wp
      (refuse action code message) (fun _ _ => True) (start id) :=
    fun id action code message => refuse_follows (start_allows (Or.inl rfl))
  cases raw with
  | unreadable => exact hrefuse _ _ _ _
  | malformed => exact hrefuse _ _ _ _
  | envelope req =>
    simp only [Incoming.program, dispatch]
    split
    · exact hrefuse _ _ _ _
    · rename_i def_ hdef
      split
      · exact hrefuse _ _ _ _
      · rename_i catalog _
        have hserve : (serve (server c marshals) catalog def_ req).Uses Op.OfServe :=
          uses_serve (actionRegistry_uses hdef req.body).1
        have huses : (authenticate def_ req : Call UnitOfWork _).Uses _ := safe_authenticate.uses
        have hstay : ∀ op r, (∃ t, op = .sessionVerify req.userId t) →
            next (start req.userId) op r = start req.userId := by
          rintro op r ⟨t, rfl⟩
          unfold start
          split_ifs <;> rfl
        have hauth := Monitor.wp_of_uses (m := lockMonitor req.userId)
          (fun op h => start_allows (Or.inr ⟨_, h⟩)) hstay huses
        refine Setting.wp_bind (Setting.wp_mono ?_ hauth)
        rintro (refusal | _) s rfl
        · cases refusal with
          | some refusal => exact hrefuse _ _ _ _
          | none => exact underUserLock_follows rfl hserve
        · trivial

end

/-! ## Tokens -/

section

variable {ι : Type}

def tokenOf : (op : Op) → op.Resp → Option String
  | .newToken, t => t
  | _, _ => none

def tokens (tr : List (Occurrence ι Op.Resp World)) : List (ι × String) :=
  tr.filterMap fun
    | .act i e => (tokenOf e.op e.resp).map fun t => (i, t)
    | .env _ _ => none

theorem tokens_append (t₁ t₂ : List (Occurrence ι Op.Resp World)) :
    tokens (t₁ ++ t₂) = tokens t₁ ++ tokens t₂ :=
  List.filterMap_append

theorem issued_mono {op : Op} {w w' : World} {r : op.Resp} (h : World.Step op w r w') (t : String)
    (ht : t ∈ w.issued) : t ∈ w'.issued := by
  cases op with
  | newToken =>
    rcases h.newToken with ⟨-, rfl⟩ | ⟨t', -, -, -, rfl⟩
    · exact ht
    · exact List.mem_cons_of_mem _ ht
  | lockAcquire => rcases h.lockAcquire with ⟨-, rfl⟩ | ⟨-, -, rfl⟩ <;> exact ht
  | lockRelease => rcases h.lockRelease with rfl | ⟨-, rfl⟩ <;> exact ht
  | sessionSet => rcases h.sessionSet with ⟨-, rfl⟩ | ⟨-, rfl⟩ <;> exact ht
  | _ => rw [(h.frame (by simp [Op.Control])).2.2]; exact ht

theorem issued_fresh {op : Op} {w w' : World} {r : op.Resp} (h : World.Step op w r w') (t : String)
    (ht : tokenOf op r = some t) : t ∉ w.issued ∧ t ∈ w'.issued := by
  cases op with
  | newToken =>
    rcases h.newToken with ⟨rfl, -⟩ | ⟨t', -, hfresh, rfl, rfl⟩
    · cases ht
    · cases ht
      exact ⟨hfresh, List.mem_cons_self⟩
  | _ => cases ht

theorem tokens_fresh {ε α : Type} [DecidableEq ι] {c₀ c : Config ι Op.Resp ε α World}
    {tr : List (Occurrence ι Op.Resp World)} (h : Exec World.Step World.Expires c₀ tr c) :
    ((tokens tr).map Prod.snd).Nodup ∧ ∀ p ∈ tokens tr, p.2 ∈ c.world.issued := by
  have henv : ∀ w w', World.Expires w w' → ∀ t, t ∈ w.issued → t ∈ w'.issued := by
    intro w w' he t ht
    rw [he.issued]
    exact ht
  have hfresh : ∀ (op : Op) w r w', World.Step op w r w' → ∀ t, tokenOf op r = some t →
      ¬ t ∈ w.issued ∧ t ∈ w'.issued := fun _ _ _ _ hs t => issued_fresh hs t
  have hlabels : tokens tr = labels tokenOf tr := by
    unfold tokens labels
    congr 1
    funext o
    cases o with
    | act i e => rfl
    | env w w' => rfl
  rw [hlabels]
  exact h.labels_fresh hfresh (fun _ _ _ _ hs t => issued_mono hs t) henv

theorem tokens_injective {tr : List (Occurrence ι Op.Resp World)}
    (h : ((tokens tr).map Prod.snd).Nodup) {i j : ι} {t : String} (hi : (i, t) ∈ tokens tr)
    (hj : (j, t) ∈ tokens tr) : i = j :=
  congrArg Prod.fst (List.inj_on_of_nodup_map h hi hj rfl)

variable [DecidableEq ι]

def phase (userID : UInt64) (i : ι) (tr : List (Occurrence ι Op.Resp World)) : Phase :=
  (lockMonitor userID).after i (start userID) tr

theorem phase_act_self (userID : UInt64) (i : ι) (tr : List (Occurrence ι Op.Resp World))
    (e : Event Op.Resp World) :
    phase userID i (tr ++ [.act i e]) = next (phase userID i tr) e.op e.resp :=
  Monitor.after_act_self (m := lockMonitor userID) i (start userID) tr e

theorem phase_act_ne (userID : UInt64) {i j : ι} (h : j ≠ i)
    (tr : List (Occurrence ι Op.Resp World)) (e : Event Op.Resp World) :
    phase userID i (tr ++ [.act j e]) = phase userID i tr :=
  Monitor.after_act_ne (m := lockMonitor userID) h (start userID) tr e

theorem phase_env (userID : UInt64) (i : ι) (tr : List (Occurrence ι Op.Resp World))
    (w w' : World) : phase userID i (tr ++ [.env w w']) = phase userID i tr :=
  Monitor.after_env (m := lockMonitor userID) i (start userID) tr w w'

theorem next_token {s : Phase} {op : Op} {r : op.Resp} {t : String}
    (h : next s op r = .issued t ∨ next s op r = .holding t) :
    (s = .issued t ∨ s = .holding t) ∨ tokenOf op r = some t := by
  unfold next at h
  split at h
  · right
    simpa [tokenOf] using h
  · left
    left
    simpa using h
  · simp at h
  · exact Or.inl h

theorem mem_tokens_of_phase {userID : UInt64} {i : ι} {t : String}
    (tr : List (Occurrence ι Op.Resp World)) :
    phase userID i tr = .issued t ∨ phase userID i tr = .holding t → (i, t) ∈ tokens tr := by
  induction tr using List.reverseRecOn with
  | nil =>
    have hstart : phase userID i [] = start userID := rfl
    rw [hstart]
    unfold start
    split_ifs <;> simp
  | append_singleton tr o ih =>
    rw [tokens_append, List.mem_append]
    intro h
    cases o with
    | env w w' =>
      rw [phase_env] at h
      exact Or.inl (ih h)
    | act j e =>
      by_cases hj : j = i
      · subst hj
        rw [phase_act_self] at h
        rcases next_token h with hs | ht
        · exact Or.inl (ih hs)
        · right
          simp [tokens, ht]
      · rw [phase_act_ne userID hj] at h
        exact Or.inl (ih h)

/-! ## Holding the lock -/

variable {c : Container} {marshals : Message → Bool} {requests : ι → Incoming} {w₀ : World}
  {tr : List (Occurrence ι Op.Resp World)} {cfg : Config ι Op.Resp UnitOfWork Reply World}

theorem allowed {i : ι} {e : Event Op.Resp World} {before after : List (Occurrence ι Op.Resp World)}
    (h : Exec World.Step World.Expires (arrived (server c marshals) requests w₀)
      (before ++ .act i e :: after) cfg) :
    allows (requests i).raw.userId (phase (requests i).raw.userId i before) e.op :=
  (Exec.monitored (dispatch_follows (requests i)) h).2 before e after rfl

theorem step_lock {op : Op} {w w' : World} {r : op.Resp} {key : LockKey} {t : String}
    (h : World.Step op w r w') (hheld : w.lock key = some t) :
    w'.lock key = some t ∨ op = .lockRelease key t := by
  cases op with
  | lockAcquire k t' =>
    rcases h.lockAcquire with ⟨-, rfl⟩ | ⟨-, hfree, rfl⟩
    · exact Or.inl hheld
    · have hk : key ≠ k := by
        rintro rfl
        simp [hfree] at hheld
      left
      simpa [Function.update_of_ne hk] using hheld
  | lockRelease k t' =>
    rcases h.lockRelease with rfl | ⟨ht, rfl⟩
    · exact Or.inl hheld
    · by_cases hk : key = k
      · subst hk
        rw [hheld] at ht
        cases ht
        exact Or.inr rfl
      · left
        simpa [Function.update_of_ne hk] using hheld
  | sessionSet => rcases h.sessionSet with ⟨-, rfl⟩ | ⟨-, rfl⟩ <;> exact Or.inl hheld
  | newToken => rcases h.newToken with ⟨-, rfl⟩ | ⟨t, -, -, -, rfl⟩ <;> exact Or.inl hheld
  | _ =>
    left
    rw [(h.frame (by simp [Op.Control])).2.1]
    exact hheld

theorem next_holding {userID : UInt64} {s : Phase} {op : Op} {r : op.Resp} {t : String}
    {w w' : World} (hallow : allows userID s op) (hs : World.Step op w r w')
    (h : next s op r = .holding t) :
    w'.lock (.user userID) = some t ∨ (s = .holding t ∧ ∀ k t', op ≠ .lockRelease k t') := by
  unfold next at h
  split at h
  · cases h
  · rename_i t' key t''
    cases h
    have hop : Op.lockAcquire key t'' = Op.lockAcquire (.user userID) t := by
      simpa [allows] using hallow
    cases hop
    left
    rcases hs.lockAcquire with ⟨hne, -⟩ | ⟨-, -, rfl⟩
    · exact absurd rfl hne
    · simp
  · cases h
  · rename_i hrel
    right
    subst h
    refine ⟨rfl, ?_⟩
    rintro k t' rfl
    exact hrel t _ _ _ rfl rfl HEq.rfl

theorem holding_of_release {userID : UInt64} {s : Phase} {key : LockKey} {t : String}
    (h : allows userID s (.lockRelease key t)) : s = .holding t := by
  cases s with
  | lockFree => exact absurd rfl (h.2 key t)
  | outside => simp [allows] at h
  | issued t' => simp [allows] at h
  | holding t' => rw [h.2 key t rfl]
  | left => exact h.elim

theorem held_of_holding {i : ι} {t : String} {before between : List (Occurrence ι Op.Resp World)}
    (h : Exec World.Step World.Expires (arrived (server c marshals) requests w₀)
      (before ++ between) cfg)
    (hkept : ∀ w w', .env w w' ∈ between →
      w'.lock (.user (requests i).raw.userId) = w.lock (.user (requests i).raw.userId))
    (hbefore : ∀ cfg', Exec World.Step World.Expires (arrived (server c marshals) requests w₀)
      before cfg' → phase (requests i).raw.userId i before = .holding t →
      cfg'.world.lock (.user (requests i).raw.userId) = some t)
    (hold : phase (requests i).raw.userId i (before ++ between) = .holding t) :
    cfg.world.lock (.user (requests i).raw.userId) = some t := by
  induction between using List.reverseRecOn generalizing cfg with
  | nil =>
    rw [List.append_nil] at h hold
    exact hbefore cfg h hold
  | append_singleton between o ih =>
    rw [← List.append_assoc] at h hold
    have hkept' : ∀ w w', .env w w' ∈ between →
        w'.lock (.user (requests i).raw.userId) = w.lock (.user (requests i).raw.userId) :=
      fun w w' hm => hkept w w' (by simp [hm])
    cases o with
    | env w w' =>
      obtain ⟨cfg₁, h₁, rfl, -, rfl⟩ := h.last_env
      rw [phase_env] at hold
      have hsame := hkept cfg₁.world w' (by simp)
      exact hsame.trans (ih h₁ hkept' hold)
    | act j e =>
      obtain ⟨cfg₁, k, h₁, -, hbeforeE, hs, rfl⟩ := h.last_act
      by_cases hj : j = i
      · subst hj
        rw [phase_act_self] at hold
        rcases next_holding (allowed h) hs hold with hlock | ⟨hphase, hrel⟩
        · exact hlock
        · have hlock := ih h₁ hkept' hphase
          rw [hbeforeE] at hlock
          exact (step_lock hs hlock).resolve_right (hrel _ _)
      · rw [phase_act_ne _ hj] at hold
        have hlock := ih h₁ hkept' hold
        rw [hbeforeE] at hlock
        refine (step_lock hs hlock).resolve_right fun hop => hj ?_
        have hallow := allowed h
        rw [hop] at hallow
        exact tokens_injective (tokens_fresh h₁).1
          (mem_tokens_of_phase _ (Or.inr (holding_of_release hallow)))
          (mem_tokens_of_phase _ (Or.inr hold))

/-! ## Fencing -/

def Acquires (userID : UInt64) (e : Event Op.Resp World) : Prop :=
  ∃ t w w', e = ⟨.lockAcquire (.user userID) t, .acquired, w, w'⟩

theorem acquires_phase {i : ι} {userID : UInt64} {e : Event Op.Resp World}
    {before after : List (Occurrence ι Op.Resp World)}
    (h : Exec World.Step World.Expires (arrived (server c marshals) requests w₀)
      (before ++ .act i e :: after) cfg) (he : Acquires userID e) :
    (requests i).raw.userId = userID ∧
      ∃ t, phase userID i (before ++ [.act i e]) = .holding t ∧
        e.after.lock (.user userID) = some t := by
  obtain ⟨t, w, w', rfl⟩ := he
  have hallow := allowed h
  cases hphase : phase (requests i).raw.userId i before with
  | lockFree => exact absurd rfl (by rw [hphase] at hallow; exact hallow.1 _ _)
  | outside => simp [hphase, allows] at hallow
  | holding t' => exact absurd rfl (by rw [hphase] at hallow; exact hallow.1 _ _)
  | left => simp [hphase, allows] at hallow
  | issued t' =>
    have hop : Op.lockAcquire (.user userID) t =
        .lockAcquire (.user (requests i).raw.userId) t' := by
      simpa [hphase, allows] using hallow
    injection hop with hkey ht
    injection hkey with hid
    subst hid ht
    refine ⟨rfl, t, ?_, ?_⟩
    · rw [phase_act_self, hphase]
      rfl
    · have hstep : World.Step (.lockAcquire (.user (requests i).raw.userId) t) w .acquired w' :=
        h.step_of_mem (i := i) (e := ⟨_, _, w, w'⟩) (by simp)
      rcases hstep.lockAcquire with ⟨hne, -⟩ | ⟨-, -, heq⟩
      · exact absurd rfl hne
      · simp [heq]

theorem next_of_holding {s : Phase} {op : Op} {r : op.Resp} {t : String}
    (h : s = .holding t ∨ s = .left) : next s op r = .holding t ∨ next s op r = .left := by
  rcases h with rfl | rfl
  · cases op <;> first | exact Or.inr rfl | exact Or.inl rfl
  · exact Or.inr (by cases op <;> rfl)

theorem phase_of_holding {userID : UInt64} {i : ι} {t : String}
    {before : List (Occurrence ι Op.Resp World)} (between : List (Occurrence ι Op.Resp World))
    (h : phase userID i before = .holding t) :
    phase userID i (before ++ between) = .holding t ∨
      phase userID i (before ++ between) = .left := by
  induction between using List.reverseRecOn with
  | nil => simp [h]
  | append_singleton between o ih =>
    rw [← List.append_assoc]
    cases o with
    | env w w' => rwa [phase_env]
    | act j e =>
      by_cases hj : j = i
      · subst hj
        rw [phase_act_self]
        exact next_of_holding ih
      · rwa [phase_act_ne _ hj]

theorem silent_of_over {i : ι} {before after : List (Occurrence ι Op.Resp World)}
    (h : Exec World.Step World.Expires (arrived (server c marshals) requests w₀)
      (before ++ after) cfg) (hover : phase (requests i).raw.userId i before = .left)
    (e : Event Op.Resp World) : .act i e ∉ after := by
  induction after generalizing before with
  | nil => simp
  | cons o after ih =>
    have hnot : ∀ e', o ≠ .act i e' := by
      rintro e' rfl
      have hallow := allowed h
      rw [hover] at hallow
      exact hallow
    have hover' : phase (requests i).raw.userId i (before ++ [o]) = .left := by
      cases o with
      | env w w' => rwa [phase_env]
      | act j e' =>
        have hj : j ≠ i := by
          rintro rfl
          exact hnot e' rfl
        rwa [phase_act_ne _ hj]
    intro he
    rcases List.mem_cons.mp he with heq | he
    · exact hnot e heq.symm
    · exact ih (by simpa using h) hover' he

/-- When request `b` acquires the lock after request `a`, and the key has not expired in
between, `a` writes nothing any more. -/
theorem fenced_of_kept {userID : UInt64} {a b : ι} {ea eb : Event Op.Resp World}
    {before between after : List (Occurrence ι Op.Resp World)}
    (h : Exec World.Step World.Expires (arrived (server c marshals) requests w₀)
      (before ++ .act a ea :: (between ++ .act b eb :: after)) cfg)
    (ha : Acquires userID ea) (hb : Acquires userID eb)
    (hkept : ∀ w w', .env w w' ∈ between →
      w'.lock (.user userID) = w.lock (.user userID)) :
    ∀ e, .act a e ∈ after → writes e.op = false := by
  obtain ⟨rfl, t, hold, hlock⟩ := acquires_phase h ha
  have hcut : Exec World.Step World.Expires (arrived (server c marshals) requests w₀)
      ((before ++ [.act a ea] ++ between) ++ .act b eb :: after) cfg := by simpa using h
  obtain ⟨cfg₁, h₁, h₂⟩ := hcut.split
  -- `b` finds the lock free
  have hfree : cfg₁.world.lock (.user (requests a).raw.userId) = none := by
    obtain ⟨t', w, w', rfl⟩ := hb
    obtain ⟨-, -, hworld, hs, -⟩ := h₂.head_act
    rw [hworld]
    rcases hs.lockAcquire with ⟨hne, -⟩ | ⟨-, hfree, -⟩
    · exact absurd rfl hne
    · exact hfree
  have hheld : ∀ cfg', Exec World.Step World.Expires (arrived (server c marshals) requests w₀)
      (before ++ [.act a ea]) cfg' →
      phase (requests a).raw.userId a (before ++ [.act a ea]) = .holding t →
      cfg'.world.lock (.user (requests a).raw.userId) = some t := by
    intro cfg' h' _
    obtain ⟨-, -, -, -, -, -, rfl⟩ := h'.last_act
    exact hlock
  have hover : phase (requests a).raw.userId a (before ++ [.act a ea] ++ between) = .left := by
    refine (phase_of_holding between hold).resolve_left fun hstill => ?_
    have hkey := held_of_holding h₁ hkept hheld hstill
    rw [hfree] at hkey
    cases hkey
  intro e he
  have hafter := silent_of_over hcut hover e
  exact absurd (List.mem_cons_of_mem _ he) hafter

end

/-! ## Two upgrades of one card -/

section

def upgrades : Bool → Incoming := fun _ => Sample.upgradeRequest 1 "s" 5

def initial : Config Bool Op.Resp UnitOfWork Reply World :=
  arrived Sample.servers upgrades Sample.world

def approach (i : Bool) (token : String) : List (Move Bool Choice World) :=
  [.act i {}, .act i { token := token }]

def played (ms : List (Move Bool Choice World))
    (cfg : Config Bool Op.Resp UnitOfWork Reply World) :
    Config Bool Op.Resp UnitOfWork Reply World :=
  (play World.exec ms cfg).2

def firstHolds : Config Bool Op.Resp UnitOfWork Reply World :=
  played [.act false {}] (played (approach false "a") initial)

theorem exec_handover (between last : List (Move Bool Choice World))
    (hbetween : ∀ f, .env f ∈ between → ∀ w, World.Expires w (f w))
    (hlast : ∀ f, .env f ∉ last) {e : Event Op.Resp World}
    (he : (play World.exec [.act true {}] (played between firstHolds)).1 = [.act true e]) :
    ∃ before ea cfg, Acquires 1 ea ∧ Exec World.Step World.Expires initial
      (before ++ .act false ea :: ((play World.exec between firstHolds).1 ++ .act true e ::
        (play World.exec last (played [.act true {}] (played between firstHolds))).1)) cfg := by
  have run : ∀ (ms : List (Move Bool Choice World)) cfg,
      (∀ f, .env f ∈ ms → ∀ w, World.Expires w (f w)) →
      Exec World.Step World.Expires cfg (play World.exec ms cfg).1 (played ms cfg) :=
    fun ms cfg h => exec_play ms h cfg
  have h₁ := run (approach false "a") initial (by simp [approach])
  have h₂ := run [.act false {}] (played (approach false "a") initial) (by simp)
  have h₃ := run between firstHolds hbetween
  have h₄ := run [.act true {}] (played between firstHolds) (by simp)
  have h₅ := run last (played [.act true {}] (played between firstHolds))
    fun f hf => absurd hf (hlast f)
  rw [he] at h₄
  have ha : (play World.exec [.act false {}] (played (approach false "a") initial)).1 =
      [.act false ⟨.lockAcquire (.user 1) "a", .acquired,
        (played (approach false "a") initial).world, firstHolds.world⟩] := rfl
  rw [ha] at h₂
  have h := h₁.append (h₂.append (h₃.append (h₄.append h₅)))
  exact ⟨_, _, _, ⟨"a", _, _, rfl⟩, h⟩

theorem fenced_of_kept_upgrades :
    ∃ before ea between eb after cfg,
      Exec World.Step World.Expires initial
        (before ++ .act false ea :: (between ++ .act true eb :: after)) cfg ∧
      Acquires 1 ea ∧ Acquires 1 eb ∧ ∀ e, .act false e ∈ after → writes e.op = false := by
  -- the first request runs to its end before the second takes the lock
  have hnone : ∀ f, .env f ∉ List.replicate 11 (.act false {}) ++ approach true "b" := by
    simp [approach]
  obtain ⟨before, ea, cfg, ha, h⟩ := exec_handover _ (List.replicate 11 (.act true {}))
    (fun f hf => absurd hf (hnone f)) (by simp)
    (e := ⟨.lockAcquire (.user 1) "b", .acquired, _, _⟩) rfl
  refine ⟨_, _, _, _, _, _, h, ha, ⟨"b", _, _, rfl⟩, ?_⟩
  refine fenced_of_kept h ha ⟨"b", _, _, rfl⟩ fun w w' hm => ?_
  obtain ⟨f, hf, -⟩ := env_of_mem_play hm
  exact absurd hf (hnone f)

/-- With an expiry in between, the first request writes after the second has acquired the
lock: its handler has only started. -/
theorem not_fenced :
    ∃ before ea between eb after cfg,
      Exec World.Step World.Expires initial
        (before ++ .act false ea :: (between ++ .act true eb :: after)) cfg ∧
      Acquires 1 ea ∧ Acquires 1 eb ∧ ∃ e, .act false e ∈ after ∧ writes e.op = true := by
  have hexpiry : ∀ f, .env f ∈ .env (fun w : World =>
      { w with lock := Function.update w.lock (.user 1) none }) :: approach true "b" →
      ∀ w, World.Expires w (f w) := by
    intro f hf w
    simp only [approach, List.mem_cons, Move.env.injEq, reduceCtorEq, List.not_mem_nil,
      or_false] at hf
    rw [hf]
    exact .lock (.user 1)
  obtain ⟨before, ea, cfg, ha, h⟩ := exec_handover _ (List.replicate 9 (.act false {})) hexpiry
    (by simp) (e := ⟨.lockAcquire (.user 1) "b", .acquired, _, _⟩) rfl
  refine ⟨_, _, _, _, _, _, h, ha, ⟨"b", _, _, rfl⟩, ?_⟩
  have hwrites : ((play World.exec (List.replicate 9 (.act false {}))
      (played [.act true {}] (played (.env (fun w : World =>
        { w with lock := Function.update w.lock (.user 1) none }) :: approach true "b")
          firstHolds))).1.any fun
        | .act false e => writes e.op
        | _ => false) = true := rfl
  obtain ⟨o, ho, hw⟩ := List.any_eq_true.mp hwrites
  cases o with
  | env => simp at hw
  | act i e =>
    cases i with
    | false => exact ⟨e, ho, hw⟩
    | true => simp at hw

end

end FutureWas.LockFencing
