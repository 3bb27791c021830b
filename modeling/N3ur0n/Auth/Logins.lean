import N3ur0n.Auth.Sessions

/-!
# Verifying passwords

The routes that verify a password fetch its hash first, and a hash takes time to
compute: here the verification is a step of its own, so that steps of other
requests come between it and the fetch (`PasswordPhase.verify`). Of a request
is remembered what its handler still has at hand: the hash that a login has
verified, the user whose password is changed (`PasswordUse`). The storage calls
are taken to succeed, those too whose error the code drops or only logs (the
purge of `change_password`).

* `AuthSetting.handle_eq_fetch`: a route that verifies a password fetches,
  verifies, and goes on as it did when all of this was one step;
* `Goes`: where a step leads, and what it has checked;
* `PasswordPool.step_db`: what a step writes.
-/

namespace N3ur0n

/-- What the handler of a request keeps until it is done. -/
inductive PasswordUse
  | plain
  /-- A login has verified a password against this hash. -/
  | login (hash : String)
  /-- The password of this user is changed. -/
  | change (user : AuthedUser)
  deriving DecidableEq

/-- The hash a login has verified. -/
def PasswordUse.verified : PasswordUse → Option String
  | .login hash => some hash
  | .plain | .change _ => none

/-- A password to be verified, and how the request goes on if it is not, and if
    it is. -/
structure PasswordCheck where
  password : String
  hash : String
  failure : AuthResponse
  use : PasswordUse
  next : AuthPhase
  deriving DecidableEq

/-- Where a request stands. -/
inductive PasswordPhase
  | call (use : PasswordUse) (phase : AuthPhase)
  | verify (check : PasswordCheck)
  deriving DecidableEq

structure PasswordThread where
  refreshed : Option String
  phase : PasswordPhase
  deriving DecidableEq

namespace AuthSetting

variable (P : AuthSetting) (σ : AuthState)

/-- `login` and `change_password` up to the verification: the hash is fetched. -/
def fetch (user : Option AuthedUser) : AuthRoute → Option (Except AuthResponse PasswordCheck)
  | .login username password => some <|
    match σ.db.fetchPasswordHash username with
    | none => .error (.error 401 "invalid credentials")
    | some (id, hash) => .ok ⟨password, hash, .error 401 "invalid credentials", .login hash,
        .loginUser id σ.clock⟩
  | .changePassword currentPassword newPassword => some <|
    match user with
    | none => .error unauthorised
    | some u => do
      Except.reject (newPassword.length < 6) (.error 400 "new password must be at least 6 chars")
      match σ.db.fetchPasswordHash u.username with
      | none => .error (.error 500 "user not found")
      | some (_, hash) => .ok ⟨currentPassword, hash, .error 401 "current password incorrect",
          .change u, .setOwnPassword u.id newPassword⟩
  | _ => none

/-- The steps of a request other than a verification are those it had. -/
def callStep (salt : String) (use : PasswordUse) (phase : AuthPhase) :
    AuthState × (PasswordPhase ⊕ AuthResponse) :=
  let (σ', o) := P.step σ ⟨salt, true⟩ phase
  (σ', o.map (.call use) id)

/-- The next step of a request. -/
def passwordStep (salt : String) : PasswordPhase → AuthState × (PasswordPhase ⊕ AuthResponse)
  | .call use (.handler route user) =>
    match fetch σ user route with
    | some (.error response) => (σ, .inr response)
    | some (.ok check) => (σ, .inl (.verify check))
    | none => P.callStep σ salt use (.handler route user)
  | .call use phase => P.callStep σ salt use phase
  | .verify check =>
    if P.verifyPassword check.password check.hash then (σ, .inl (.call check.use check.next))
    else (σ, .inr check.failure)

def passwordThreadStep (salt : String) (t : PasswordThread) :
    AuthState × (PasswordThread ⊕ (AuthResponse × Option String)) :=
  let refreshed := match t.phase with
    | .call _ (.refresh _ token _ _) => some token
    | _ => t.refreshed
  let (σ', o) := P.passwordStep σ salt t.phase
  (σ', o.map (⟨refreshed, ·⟩) (·, refreshed))

/-- How requests are served, verifications being steps. -/
def passwordProgram : Program AuthState AuthRequest PasswordThread String
    (AuthResponse × Option String) AuthEvent where
  enter req := ⟨none, .call .plain (.arrived req)⟩
  step σ _ t salt := some (P.passwordThreadStep σ salt t)
  abort _ _ _ := none
  env := AuthState.env

variable {P σ}

/-- A route that verifies a password fetches its hash, then goes on if the
    password matches: this is what it was said to do in one step. -/
theorem handle_eq_fetch {user : Option AuthedUser} {route : AuthRoute}
    {e : Except AuthResponse PasswordCheck} (h : fetch σ user route = some e) :
    P.handle σ user route = e.bind fun check =>
      if P.verifyPassword check.password check.hash then .ok (.inl check.next)
      else .error check.failure := by
  have hverify {password hash : String} {failure : AuthResponse} {next : AuthPhase} :
      (Except.reject (¬P.verifyPassword password hash) failure).bind
          (fun _ => .ok (Sum.inl (β := AuthResponse) next)) =
        if P.verifyPassword password hash then .ok (.inl next) else .error failure := by
    by_cases hv : P.verifyPassword password hash
    · simp [Except.reject, hv, Except.bind]
    · simp [Except.reject, hv, Except.bind]
  cases route with
  | login username password =>
    obtain rfl := Option.some.inj h
    simp only [handle]
    cases σ.db.fetchPasswordHash username with
    | none => rfl
    | some r => exact hverify
  | changePassword currentPassword newPassword =>
    obtain rfl := Option.some.inj h
    cases user with
    | none => rfl
    | some u =>
      simp only [handle]
      by_cases hl : newPassword.length < 6
      · simp [Except.reject, hl, Bind.bind, Except.bind]
      · cases σ.db.fetchPasswordHash u.username with
        | none => simp [Except.reject, hl, Bind.bind, Except.bind]
        | some r =>
          simp only [Except.reject, hl, if_false, Bind.bind, Except.bind]
          exact hverify
  | _ => cases h

end AuthSetting

/-! ## Steps -/

/-- The password that a route verifies. -/
inductive Fetches (σ : AuthState) (user : Option AuthedUser) : AuthRoute → PasswordCheck → Prop
  | login {username password id hash failure} : σ.db.fetchPasswordHash username = some (id, hash) →
      Fetches σ user (.login username password)
        ⟨password, hash, failure, .login hash, .loginUser id σ.clock⟩
  | change {currentPassword newPassword u id hash failure} : user = some u →
      σ.db.fetchPasswordHash u.username = some (id, hash) →
      Fetches σ user (.changePassword currentPassword newPassword)
        ⟨currentPassword, hash, failure, .change u, .setOwnPassword u.id newPassword⟩

theorem AuthSetting.fetches_of_fetch {σ : AuthState} {user : Option AuthedUser} {route : AuthRoute}
    {check : PasswordCheck} (h : fetch σ user route = some (.ok check)) :
    Fetches σ user route check := by
  cases route with
  | login username password =>
    have h := Option.some.inj h
    split at h
    · cases h
    · next id hash hf =>
      obtain rfl := Except.ok.inj h
      exact .login hf
  | changePassword currentPassword newPassword =>
    have h := Option.some.inj h
    split at h
    · cases h
    · next u =>
      obtain ⟨-, h⟩ := Except.check_eq_ok.1 h
      split at h
      · cases h
      · next id hash hf =>
        obtain rfl := Except.ok.inj h
        exact .change rfl hf
  | _ => cases h

/-- Where a step leads: it fetches a hash, verifies a password, or is one that
    requests had before. -/
inductive Goes (P : AuthSetting) (σ : AuthState) (salt : String) :
    PasswordPhase → PasswordPhase → Prop
  | fetched {use route user check} : Fetches σ user route check →
      Goes P σ salt (.call use (.handler route user)) (.verify check)
  | verified {check} : P.verifyPassword check.password check.hash →
      Goes P σ salt (.verify check) (.call check.use check.next)
  | called {use phase phase'} : LeadsTo P σ salt phase phase' →
      (∀ route user, phase = .handler route user → AuthSetting.fetch σ user route = none) →
      Goes P σ salt (.call use phase) (.call use phase')

/-- The write of a step, if it makes one. -/
def PasswordPhase.write (P : AuthSetting) (σ : AuthState) (salt : String) :
    PasswordPhase → Option AuthWrite
  | .call _ phase => phase.write P σ ⟨salt, true⟩
  | .verify _ => none

/-- How many tokens a step draws. -/
def PasswordPhase.draws : PasswordPhase → ℕ
  | .call _ phase => phase.draws
  | .verify _ => 0

namespace AuthSetting

variable {P : AuthSetting} {σ : AuthState} {salt : String}

theorem callStep_state (use : PasswordUse) (phase : AuthPhase) :
    (P.callStep σ salt use phase).1 =
      ⟨σ.clock, ((phase.write P σ ⟨salt, true⟩).map σ.db.write).getD σ.db,
        σ.drawn + phase.draws⟩ :=
  step_state phase

/-- A step does nothing but its write, and draw a token. -/
theorem passwordStep_state (phase : PasswordPhase) : (P.passwordStep σ salt phase).1 =
    ⟨σ.clock, ((phase.write P σ salt).map σ.db.write).getD σ.db, σ.drawn + phase.draws⟩ := by
  cases phase with
  | verify check =>
    simp only [passwordStep]
    split <;> rfl
  | call use phase =>
    cases phase with
    | handler route user =>
      simp only [passwordStep]
      split
      · rfl
      · rfl
      · exact callStep_state use (.handler route user)
    | _ => exact callStep_state use _

theorem goes_of_callStep {use : PasswordUse} {phase : AuthPhase} {phase' : PasswordPhase}
    (hf : ∀ route user, phase = .handler route user → fetch σ user route = none)
    (h : (P.callStep σ salt use phase).2 = .inl phase') :
    Goes P σ salt (.call use phase) phase' := by
  simp only [callStep] at h
  cases hnext : (P.step σ ⟨salt, true⟩ phase).2 with
  | inl next =>
    rw [hnext] at h
    obtain rfl := Sum.inl.inj h
    exact .called (leadsTo_of_step hnext) hf
  | inr response =>
    rw [hnext] at h
    cases h

theorem goes_of_step {phase phase' : PasswordPhase}
    (h : (P.passwordStep σ salt phase).2 = .inl phase') : Goes P σ salt phase phase' := by
  cases phase with
  | verify check =>
    simp only [passwordStep] at h
    split at h
    · next hv => exact Sum.inl.inj h ▸ .verified hv
    · cases h
  | call use phase =>
    cases phase with
    | handler route user =>
      simp only [passwordStep] at h
      split at h
      · cases h
      · next check hf => exact Sum.inl.inj h ▸ .fetched (fetches_of_fetch hf)
      · next hf =>
        refine goes_of_callStep (fun route' user' he => ?_) h
        obtain ⟨rfl, rfl⟩ := AuthPhase.handler.inj he
        exact hf
    | _ => exact goes_of_callStep (fun _ _ he => nomatch he) h

/-- What a request does in one step. -/
theorem passwordProgram_step {k : ℕ} {σ' : AuthState} {l : PasswordThread}
    {o : PasswordThread ⊕ (AuthResponse × Option String)}
    (h : P.passwordProgram.step σ k l salt = some (σ', o)) :
    σ' = ⟨σ.clock, ((l.phase.write P σ salt).map σ.db.write).getD σ.db, σ.drawn + l.phase.draws⟩ ∧
      ∀ l', o = .inl l' → Goes P σ salt l.phase l'.phase := by
  obtain rfl : (P.passwordThreadStep σ salt l).1 = σ' := congrArg Prod.fst (Option.some.inj h)
  obtain rfl : (P.passwordThreadStep σ salt l).2 = o := congrArg Prod.snd (Option.some.inj h)
  refine ⟨passwordStep_state l.phase, fun l' hl' => goes_of_step ?_⟩
  simp only [passwordThreadStep] at hl'
  cases hnext : (P.passwordStep σ salt l.phase).2 with
  | inl phase =>
    rw [hnext] at hl'
    obtain rfl := Sum.inl.inj hl'
    rfl
  | inr response =>
    rw [hnext] at hl'
    cases hl'

end AuthSetting

/-- The users and sessions, and the requests being served. -/
abbrev PasswordPool := Pool AuthState PasswordThread

abbrev PasswordAction := Pool.Action AuthRequest String AuthEvent

namespace PasswordPool

variable {P : AuthSetting} {t t' : PasswordPool} {a : PasswordAction}

/-- An instance that has just been installed. -/
def installed (clock : ℤ) : PasswordPool := Pool.idle ⟨clock, .empty, 0⟩

/-- The write of an action, if it makes one. -/
def write (P : AuthSetting) (t : PasswordPool) : PasswordAction → Option AuthWrite
  | .act k salt => (t.threads.lookup k).bind fun l => l.phase.write P t.shared salt
  | .env (.pruneExpiredSessions now) => some (.pruneExpiredSessions now)
  | .enter _ _ | .abort _ | .env (.tick _) => none

/-- An action does nothing to the tables but its write. -/
theorem step_db (h : P.passwordProgram.poolStep t a = some t') :
    t'.shared.db = ((write P t a).map t.shared.db.write).getD t.shared.db := by
  cases a with
  | enter k q =>
    obtain ⟨-, rfl⟩ := Program.enter_eq_some.1 h
    rfl
  | act k salt =>
    obtain ⟨l, σ, o, hl, hs, rfl⟩ := Program.act_eq_some.1 h
    rw [Pool.settle_shared, write, hl, (AuthSetting.passwordProgram_step hs).1, Option.bind_some]
  | abort k =>
    obtain ⟨l, σ, -, hs, -⟩ := Program.abort_eq_some.1 h
    exact absurd hs (Option.some_ne_none σ).symm
  | env v =>
    obtain ⟨σ, hs, rfl⟩ := Program.env_eq_some.1 h
    have hs : t.shared.env v = some σ := hs
    cases v with
    | tick now =>
      rw [AuthState.env, Option.ite_none_right_eq_some] at hs
      rw [← Option.some.inj hs.2]
      rfl
    | pruneExpiredSessions now =>
      rw [AuthState.env, Option.ite_none_right_eq_some] at hs
      rw [← Option.some.inj hs.2]
      rfl

/-- What holds of the tables holds after an action if its write keeps it. -/
theorem db_step {I : AuthDb → Prop} (h : I t.shared.db)
    (hstep : P.passwordProgram.poolStep t a = some t')
    (hI : ∀ w, write P t a = some w → I (t.shared.db.write w)) : I t'.shared.db := by
  rw [step_db hstep]
  cases hw : write P t a with
  | none => exact h
  | some w => exact hI w hw

/-- After an action, a request stands where it did, or where its step led it. -/
theorem step_phase {k : ℕ} {l : PasswordThread} (hstep : P.passwordProgram.poolStep t a = some t')
    (hl : t'.threads.lookup k = some l) :
    t.threads.lookup k = some l ∨ (∃ q, l.phase = .call .plain (.arrived q)) ∨
      ∃ salt l', a = .act k salt ∧ t.threads.lookup k = some l' ∧
        Goes P t.shared salt l'.phase l.phase := by
  rcases Program.lookup_step hstep hl with ⟨hl, -⟩ | ⟨q, -, rfl⟩ | ⟨salt, l', σ, rfl, hl', hs⟩
  · exact .inl hl
  · exact .inr (.inl ⟨q, rfl⟩)
  · exact .inr (.inr ⟨salt, l', rfl, hl', (AuthSetting.passwordProgram_step hs).2 l rfl⟩)

end PasswordPool

end N3ur0n
