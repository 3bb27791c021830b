import N3ur0n.Auth.Store
import N3ur0n.Lib.Threads
import N3ur0n.Planner.Reference

/-!
# The routes of users and sessions

What the server does of a request: the middleware resolves the cookie of its
session, then the route is guarded and handled. Requests are served
concurrently, and every storage call is a step of its own (`AuthPhase`), so
that those of other requests come in between. Where the code drops the error of a
storage call, the call may fail (`AuthInput.stored`), and the request goes on.
The other calls are taken to succeed: one that fails writes nothing and ends its
request with an error, as if it took no more steps.

* `AuthSetting.program`: the steps of the requests, with a clock that does not
  go back and the cleanup of expired sessions around them;
* `AuthWrite`: what a step writes, as data; `AuthSetting.step_state` says that this
  is all it does.
-/

namespace N3ur0n

/-! ## Policy -/

/-- Permission keys. -/
inductive Perm
  | chatUse
  | invokeUse
  | capsRead
  | capsWrite
  | peersRead
  | peersWrite
  | backendsRead
  | backendsWrite
  | usersRead
  | usersWrite
  | identityRead
  | identityRotate
  | filesRead
  | filesDelete
  | capsBlobsRead
  deriving DecidableEq

/-- Permissions granted to each role. -/
def permissionsFor : Role → List Perm
  | .user => [.chatUse, .invokeUse, .capsRead, .peersRead, .backendsRead, .identityRead,
      .filesRead, .filesDelete]
  | .operator => [.chatUse, .invokeUse, .capsRead, .capsWrite, .peersRead, .backendsRead,
      .identityRead, .filesRead, .filesDelete, .capsBlobsRead]
  | .admin => [.chatUse, .invokeUse, .capsRead, .capsWrite, .peersRead, .peersWrite,
      .backendsRead, .backendsWrite, .usersRead, .usersWrite, .identityRead, .identityRotate,
      .filesRead, .filesDelete, .capsBlobsRead]

def hasPermission (role : Role) (want : Perm) : Bool := want ∈ permissionsFor role

/-- Seven days, in seconds. -/
def sessionTtlSecs : ℤ := 7 * 24 * 60 * 60

/-- The authenticated user of a request: there is no token behind the one made
    up when authentication is disabled. -/
structure AuthedUser where
  id : ℤ
  username : String
  role : Role
  sessionTokenHash : Option String
  deriving DecidableEq

/-! ## Requests -/

inductive AuthRoute
  | bootstrap (username password : String)
  | login (username password : String)
  | logout
  | me
  | changePassword (currentPassword newPassword : String)
  | listUsers
  | createUser (username password role : String)
  | updateUser (id : ℤ) (role password : Option String)
  | deleteUser (id : ℤ)
  /-- Any other route, for the users who have this permission. -/
  | other (required : Perm)
  deriving DecidableEq

structure AuthRequest where
  /-- The header `Cookie`. -/
  cookie : Option String
  route : AuthRoute
  deriving DecidableEq

inductive AuthResponse
  | error (status : ℕ) (message : String)
  | storage (status : ℕ) (e : StorageError)
  | forbidden (required : Perm)
  | ok
  /-- The user is logged in, and given the cookie of this token. -/
  | issued (user : UserRecord) (permissions : List Perm) (token : String)
  /-- The cookie is cleared. -/
  | loggedOut
  | authenticated (user : AuthedUser) (permissions : List Perm)
  | anonymous (bootstrapRequired : Bool)
  | users (list : List UserRecord)
  | created (user : UserRecord)
  | updated (user : Option UserRecord)
  /-- The route is handled, and does not touch the users nor the sessions. -/
  | passed
  deriving DecidableEq

def unauthorised : AuthResponse := .error 401 "unauthenticated"

def sessionCookie : String := "n3ur0n_session"

/-- The first value that is not empty under the name of the cookie. -/
def extractCookie (header : Option String) : Option String :=
  header.bind fun raw => (raw.toList.splitOn ';').findSome? fun part =>
    let name := (sessionCookie ++ "=").toList
    let rest := (Cut.trim isWhitespace part).drop name.length
    if name.isPrefixOf (Cut.trim isWhitespace part) ∧ rest ≠ [] then some (String.ofList rest)
    else none

def isValidUsername (s : String) : Bool :=
  3 ≤ s.length ∧ s.length ≤ 32 ∧
    s.toList.all fun c => c.isAlphanum || c = '.' || c = '_' || c = '-'

/-- What the server is given: whether authentication is disabled, the hashing of
    passwords (with a salt) and of tokens, and the tokens drawn, in order. -/
structure AuthSetting where
  bypass : Bool
  hashPassword : String → String → String
  verifyPassword : String → String → Bool
  hashSessionToken : String → String
  token : ℕ → String

/-- What the requests share: the clock, the tables, and how many tokens were
    drawn. -/
structure AuthState where
  clock : ℤ
  db : AuthDb
  drawn : ℕ

/-- What a step is told: the salt, if it hashes a password, and whether its storage
    call succeeds, if it goes on as well without. -/
structure AuthInput where
  salt : String
  stored : Bool
  deriving DecidableEq

/-- A storage call whose error is dropped. -/
def AuthState.bestEffort (σ : AuthState) (i : AuthInput) (f : AuthDb → AuthDb) : AuthState :=
  { σ with db := if i.stored then f σ.db else σ.db }

/-- Where a request stands: before a storage call, with what it remembers. -/
inductive AuthPhase
  /-- The request comes in. -/
  | arrived (req : AuthRequest)
  /-- The session of the token is looked up. -/
  | lookup (route : AuthRoute) (token : String) (now : ℤ)
  /-- The session was found expired, and is deleted. -/
  | reject (route : AuthRoute) (tokenHash : String)
  /-- The session was found alive, and is given more time. -/
  | refresh (route : AuthRoute) (token : String) (now : ℤ) (user : UserRecord)
  /-- The route is guarded, and its handler begins. -/
  | handler (route : AuthRoute) (user : Option AuthedUser)
  | insertAdmin (username password : String) (now : ℤ)
  | loginUser (id now : ℤ)
  | touch (user : UserRecord) (now : ℤ)
  | issueSession (user : UserRecord) (now : ℤ)
  | deleteSession (tokenHash : String)
  | setOwnPassword (id : ℤ) (newPassword : String)
  | purgeOwn (id : ℤ)
  | insertUser (username password : String) (role : Role) (now : ℤ)
  | setRole (id : ℤ) (role : Role) (password : Option String)
  | setPassword (id : ℤ) (password : String)
  | purge (id : ℤ)
  | reload (id : ℤ)
  | delete (id : ℤ)
  deriving DecidableEq

/-- A request being served, and the token of the cookie to be sent again. -/
structure AuthThread where
  refreshed : Option String
  phase : AuthPhase
  deriving DecidableEq

/-! ## Handlers -/

/-- The check of `delete_user_route`: there is one administrator at most, and it
    is this user. -/
def isLastAdmin (list : List UserRecord) (id : ℤ) : Bool :=
  let admins := list.filter (·.role = .admin)
  admins.length ≤ 1 && admins.any (·.id = id)

/-- Unless the user has the permission, the route is not handled. -/
def requirePermission (user : Option AuthedUser) (permission : Perm) : Except AuthResponse Unit :=
  match user with
  | none => .error unauthorised
  | some u => Except.reject (¬hasPermission u.role permission) (.forbidden permission)

/-- The second half of `update_user_route`, after the role. -/
def updatePassword (id : ℤ) : Option String → AuthPhase ⊕ AuthResponse
  | none => .inl (.reload id)
  | some pw =>
    if pw.length < 6 then .inr (.error 400 "password must be at least 6 chars")
    else .inl (.setPassword id pw)

theorem updatePassword_eq_inl {id : ℤ} {password : Option String} {phase : AuthPhase}
    (h : updatePassword id password = .inl phase) :
    phase = .reload id ∨ ∃ pw, phase = .setPassword id pw := by
  cases password with
  | none => exact .inl (Sum.inl.inj h).symm
  | some pw =>
    rw [updatePassword] at h
    split_ifs at h
    exact .inr ⟨pw, (Sum.inl.inj h).symm⟩

namespace AuthSetting

variable (P : AuthSetting) (σ : AuthState)

/-- A route up to its first storage call, or its first one if it only reads. -/
def handle (user : Option AuthedUser) : AuthRoute → Except AuthResponse (AuthPhase ⊕ AuthResponse)
  | .bootstrap username password => do
    Except.reject (σ.db.countUsers > 0) (.error 409 "bootstrap already completed")
    Except.reject (¬isValidUsername username)
      (.error 400 "invalid username (3-32 chars, [A-Za-z0-9._-])")
    Except.reject (password.length < 6) (.error 400 "password must be at least 6 chars")
    .ok (.inl (.insertAdmin username password σ.clock))
  | .login username password =>
    match σ.db.fetchPasswordHash username with
    | none => .error (.error 401 "invalid credentials")
    | some (id, hash) => do
      Except.reject (¬P.verifyPassword password hash) (.error 401 "invalid credentials")
      .ok (.inl (.loginUser id σ.clock))
  | .logout =>
    match user.bind (·.sessionTokenHash) with
    | some hash => .ok (.inl (.deleteSession hash))
    | none => .ok (.inr .loggedOut)
  | .me =>
    match user with
    | some u => .ok (.inr (.authenticated u (permissionsFor u.role)))
    | none => .ok (.inr (.anonymous (σ.db.countUsers = 0)))
  | .changePassword currentPassword newPassword =>
    match user with
    | none => .error unauthorised
    | some u => do
      Except.reject (newPassword.length < 6) (.error 400 "new password must be at least 6 chars")
      match σ.db.fetchPasswordHash u.username with
      | none => .error (.error 500 "user not found")
      | some (_, hash) => do
        Except.reject (¬P.verifyPassword currentPassword hash)
          (.error 401 "current password incorrect")
        .ok (.inl (.setOwnPassword u.id newPassword))
  | .listUsers => do
    requirePermission user .usersWrite
    .ok (.inr (.users σ.db.listUsers))
  | .createUser username password role => do
    requirePermission user .usersWrite
    Except.reject (¬isValidUsername username) (.error 400 "invalid username")
    Except.reject (password.length < 6) (.error 400 "password must be at least 6 chars")
    match Role.parse role with
    | none => .error (.error 400 "role must be user|operator|admin")
    | some role => .ok (.inl (.insertUser username password role σ.clock))
  | .updateUser id role password => do
    requirePermission user .usersWrite
    match role with
    | none => .ok (updatePassword id password)
    | some r =>
      match Role.parse r with
      | none => .error (.error 400 "role must be user|operator|admin")
      | some role => .ok (.inl (.setRole id role password))
  | .deleteUser id => do
    requirePermission user .usersWrite
    Except.reject (∃ u ∈ user, u.id = id) (.error 400 "cannot delete yourself")
    Except.reject (isLastAdmin σ.db.listUsers id) (.error 400 "cannot delete the last admin")
    .ok (.inl (.delete id))
  | .other required => do
    requirePermission user required
    .ok (.inr .passed)

/-- The next step of a request. -/
def step (i : AuthInput) : AuthPhase → AuthState × (AuthPhase ⊕ AuthResponse)
  | .arrived req =>
    if P.bypass then
      (σ, .inl (.handler req.route (some ⟨0, "dev-bypass", .admin, none⟩)))
    else
      match extractCookie req.cookie with
      | none => (σ, .inl (.handler req.route none))
      | some token => (σ, .inl (.lookup req.route token σ.clock))
  | .lookup route token now =>
    match σ.db.findSession (P.hashSessionToken token) with
    | none => (σ, .inl (.handler route none))
    | some (user, expiresAt) =>
      if expiresAt ≤ now then (σ, .inl (.reject route (P.hashSessionToken token)))
      else (σ, .inl (.refresh route token now user))
  | .reject route tokenHash =>
    (σ.bestEffort i (·.deleteSession tokenHash), .inl (.handler route none))
  | .refresh route token now user =>
    let hash := P.hashSessionToken token
    (σ.bestEffort i (·.refreshSessionExpiry hash (now + sessionTtlSecs)),
      .inl (.handler route (some ⟨user.id, user.username, user.role, some hash⟩)))
  | .handler route user =>
    match P.handle σ user route with
    | .error response => (σ, .inr response)
    | .ok next => (σ, next)
  | .insertAdmin username password now =>
    match σ.db.createUser username (P.hashPassword password i.salt) .admin now with
    | .error e => (σ, .inr (.storage 500 e))
    | .ok (db, user) => ({ σ with db := db }, .inl (.issueSession user now))
  | .loginUser id now =>
    match σ.db.getUserById id with
    | none => (σ, .inr (.error 500 "user lookup failed"))
    | some user => (σ, .inl (.touch user now))
  | .touch user now =>
    (σ.bestEffort i (·.touchLastLogin user.id now), .inl (.issueSession user now))
  | .issueSession user now =>
    let token := P.token σ.drawn
    match σ.db.createSession user.id (P.hashSessionToken token) now (now + sessionTtlSecs) with
    | .error e => ({ σ with drawn := σ.drawn + 1 }, .inr (.storage 500 e))
    | .ok db => ({ σ with db := db, drawn := σ.drawn + 1 },
        .inr (.issued user (permissionsFor user.role) token))
  | .deleteSession tokenHash =>
    (σ.bestEffort i (·.deleteSession tokenHash), .inr .loggedOut)
  | .setOwnPassword id newPassword =>
    ({ σ with db := σ.db.setUserPassword id (P.hashPassword newPassword i.salt) },
      .inl (.purgeOwn id))
  | .purgeOwn id => (σ.bestEffort i (·.deleteSessionsForUser id), .inr .ok)
  | .insertUser username password role now =>
    match σ.db.createUser username (P.hashPassword password i.salt) role now with
    | .error e => (σ, .inr (.storage 409 e))
    | .ok (db, user) => ({ σ with db := db }, .inr (.created user))
  | .setRole id role password =>
    ({ σ with db := σ.db.updateUserRole id role }, updatePassword id password)
  | .setPassword id password =>
    ({ σ with db := σ.db.setUserPassword id (P.hashPassword password i.salt) }, .inl (.purge id))
  | .purge id => (σ.bestEffort i (·.deleteSessionsForUser id), .inl (.reload id))
  | .reload id => (σ, .inr (.updated (σ.db.getUserById id)))
  | .delete id => ({ σ with db := σ.db.deleteUser id }, .inr .ok)

/-- Once its session is refreshed, the cookie is sent again with the response. -/
def threadStep (i : AuthInput) (t : AuthThread) :
    AuthState × (AuthThread ⊕ (AuthResponse × Option String)) :=
  let refreshed := match t.phase with
    | .refresh _ token _ _ => some token
    | _ => t.refreshed
  let (σ', o) := P.step σ i t.phase
  (σ', o.map (⟨refreshed, ·⟩) (·, refreshed))

end AuthSetting

/-- What happens around the requests. -/
inductive AuthEvent
  | tick (now : ℤ)
  | pruneExpiredSessions (now : ℤ)

/-- The clock does not go back, and sessions are pruned at an earlier reading. -/
def AuthState.env (σ : AuthState) : AuthEvent → Option AuthState
  | .tick now => if σ.clock ≤ now then some { σ with clock := now } else none
  | .pruneExpiredSessions now =>
    if now ≤ σ.clock then some { σ with db := σ.db.pruneExpiredSessions now } else none

/-- How requests are served. One that is dropped takes no more steps. -/
def AuthSetting.program (P : AuthSetting) :
    Program AuthState AuthRequest AuthThread AuthInput (AuthResponse × Option String) AuthEvent where
  enter req := ⟨none, .arrived req⟩
  step σ _ t i := some (P.threadStep σ i t)
  abort _ _ _ := none
  env := AuthState.env

/-! ## What a handler checks -/

/-- The storage call a handler goes on to, and what it has checked before. -/
inductive HandlesTo (P : AuthSetting) (σ : AuthState) (user : Option AuthedUser) :
    AuthRoute → AuthPhase → Prop
  | bootstrap {username password} : σ.db.countUsers = 0 → isValidUsername username →
      6 ≤ password.length →
      HandlesTo P σ user (.bootstrap username password) (.insertAdmin username password σ.clock)
  | login {username password id hash} : σ.db.fetchPasswordHash username = some (id, hash) →
      P.verifyPassword password hash →
      HandlesTo P σ user (.login username password) (.loginUser id σ.clock)
  | logout {hash} : user.bind (·.sessionTokenHash) = some hash →
      HandlesTo P σ user .logout (.deleteSession hash)
  | changePassword {u currentPassword newPassword id hash} : user = some u →
      6 ≤ newPassword.length → σ.db.fetchPasswordHash u.username = some (id, hash) →
      P.verifyPassword currentPassword hash →
      HandlesTo P σ user (.changePassword currentPassword newPassword)
        (.setOwnPassword u.id newPassword)
  | createUser {username password r role} : requirePermission user .usersWrite = .ok () →
      isValidUsername username → 6 ≤ password.length → Role.parse r = some role →
      HandlesTo P σ user (.createUser username password r)
        (.insertUser username password role σ.clock)
  | setRole {id r role password} : requirePermission user .usersWrite = .ok () →
      Role.parse r = some role →
      HandlesTo P σ user (.updateUser id (some r) password) (.setRole id role password)
  | updateUser {id password phase} : requirePermission user .usersWrite = .ok () →
      updatePassword id password = .inl phase →
      HandlesTo P σ user (.updateUser id none password) phase
  | deleteUser {id} : requirePermission user .usersWrite = .ok () → (¬∃ u ∈ user, u.id = id) →
      ¬isLastAdmin σ.db.listUsers id → HandlesTo P σ user (.deleteUser id) (.delete id)

namespace AuthSetting

variable {P : AuthSetting} {σ : AuthState}

theorem handlesTo_of_handle {user : Option AuthedUser} {route : AuthRoute} {phase : AuthPhase}
    (h : P.handle σ user route = .ok (.inl phase)) : HandlesTo P σ user route phase := by
  cases route with
  | bootstrap username password =>
    obtain ⟨hc, h⟩ := Except.check_eq_ok.1 h
    obtain ⟨hv, h⟩ := Except.check_eq_ok.1 h
    obtain ⟨hl, h⟩ := Except.check_eq_ok.1 h
    obtain rfl := Sum.inl.inj (Except.ok.inj h)
    exact .bootstrap (Nat.eq_zero_of_not_pos (Except.reject_eq_ok.1 hc))
      (not_not.1 (Except.reject_eq_ok.1 hv)) (not_lt.1 (Except.reject_eq_ok.1 hl))
  | login username password =>
    simp only [handle] at h
    split at h
    · cases h
    · next id hash hf =>
      obtain ⟨hv, h⟩ := Except.check_eq_ok.1 h
      obtain rfl := Sum.inl.inj (Except.ok.inj h)
      exact .login hf (not_not.1 (Except.reject_eq_ok.1 hv))
  | logout =>
    simp only [handle] at h
    split at h
    · next hash hu =>
      obtain rfl := Sum.inl.inj (Except.ok.inj h)
      exact .logout hu
    · cases h
  | me =>
    simp only [handle] at h
    split at h <;> cases h
  | changePassword currentPassword newPassword =>
    simp only [handle] at h
    split at h
    · cases h
    · next u =>
      obtain ⟨hl, h⟩ := Except.check_eq_ok.1 h
      split at h
      · cases h
      · next id hash hf =>
        obtain ⟨hv, h⟩ := Except.check_eq_ok.1 h
        obtain rfl := Sum.inl.inj (Except.ok.inj h)
        exact .changePassword rfl (not_lt.1 (Except.reject_eq_ok.1 hl)) hf
          (not_not.1 (Except.reject_eq_ok.1 hv))
  | listUsers =>
    obtain ⟨-, h⟩ := Except.check_eq_ok.1 h
    cases h
  | createUser username password r =>
    obtain ⟨hp, h⟩ := Except.check_eq_ok.1 h
    obtain ⟨hv, h⟩ := Except.check_eq_ok.1 h
    obtain ⟨hl, h⟩ := Except.check_eq_ok.1 h
    split at h
    · cases h
    · next role hr =>
      obtain rfl := Sum.inl.inj (Except.ok.inj h)
      exact .createUser hp (not_not.1 (Except.reject_eq_ok.1 hv))
        (not_lt.1 (Except.reject_eq_ok.1 hl)) hr
  -- without a role the route goes to the password at once
  | updateUser id r password =>
    obtain ⟨hp, h⟩ := Except.check_eq_ok.1 h
    cases r with
    | none => exact .updateUser hp (Except.ok.inj h)
    | some r =>
      simp only at h
      split at h
      · cases h
      · next role hr =>
        obtain rfl := Sum.inl.inj (Except.ok.inj h)
        exact .setRole hp hr
  | deleteUser id =>
    obtain ⟨hp, h⟩ := Except.check_eq_ok.1 h
    obtain ⟨hs, h⟩ := Except.check_eq_ok.1 h
    obtain ⟨hl, h⟩ := Except.check_eq_ok.1 h
    obtain rfl := Sum.inl.inj (Except.ok.inj h)
    exact .deleteUser hp (Except.reject_eq_ok.1 hs) (Except.reject_eq_ok.1 hl)
  | other required =>
    obtain ⟨-, h⟩ := Except.check_eq_ok.1 h
    cases h

end AuthSetting

/-- Where a step leads, and what it has checked. -/
inductive LeadsTo (P : AuthSetting) (σ : AuthState) (salt : String) : AuthPhase → AuthPhase → Prop
  | bypassed {req} : P.bypass → LeadsTo P σ salt (.arrived req)
      (.handler req.route (some ⟨0, "dev-bypass", .admin, none⟩))
  | anonymous {req} : ¬P.bypass → extractCookie req.cookie = none →
      LeadsTo P σ salt (.arrived req) (.handler req.route none)
  | presented {req token} : ¬P.bypass → extractCookie req.cookie = some token →
      LeadsTo P σ salt (.arrived req) (.lookup req.route token σ.clock)
  | unknown {route token now} : σ.db.findSession (P.hashSessionToken token) = none →
      LeadsTo P σ salt (.lookup route token now) (.handler route none)
  | expired {route token now user expiresAt} :
      σ.db.findSession (P.hashSessionToken token) = some (user, expiresAt) → expiresAt ≤ now →
      LeadsTo P σ salt (.lookup route token now) (.reject route (P.hashSessionToken token))
  | alive {route token now user expiresAt} :
      σ.db.findSession (P.hashSessionToken token) = some (user, expiresAt) → now < expiresAt →
      LeadsTo P σ salt (.lookup route token now) (.refresh route token now user)
  | rejected {route tokenHash} : LeadsTo P σ salt (.reject route tokenHash) (.handler route none)
  | refreshed {route token now user} : LeadsTo P σ salt (.refresh route token now user)
      (.handler route (some ⟨user.id, user.username, user.role, some (P.hashSessionToken token)⟩))
  | handled {route user phase} : HandlesTo P σ user route phase →
      LeadsTo P σ salt (.handler route user) phase
  | inserted {username password now db user} :
      σ.db.createUser username (P.hashPassword password salt) .admin now = .ok (db, user) →
      LeadsTo P σ salt (.insertAdmin username password now) (.issueSession user now)
  | found {id now user} : σ.db.getUserById id = some user →
      LeadsTo P σ salt (.loginUser id now) (.touch user now)
  | touched {user now} : LeadsTo P σ salt (.touch user now) (.issueSession user now)
  | ownPasswordSet {id password} : LeadsTo P σ salt (.setOwnPassword id password) (.purgeOwn id)
  | roleSet {id role password phase} : updatePassword id password = .inl phase →
      LeadsTo P σ salt (.setRole id role password) phase
  | passwordSet {id password} : LeadsTo P σ salt (.setPassword id password) (.purge id)
  | purged {id} : LeadsTo P σ salt (.purge id) (.reload id)

namespace AuthSetting

variable {P : AuthSetting} {σ : AuthState}

theorem leadsTo_of_step {i : AuthInput} {phase phase' : AuthPhase}
    (h : (P.step σ i phase).2 = .inl phase') : LeadsTo P σ i.salt phase phase' := by
  cases phase with
  | arrived req =>
    simp only [step] at h
    split at h
    · next hb => exact Sum.inl.inj h ▸ .bypassed hb
    · next hb =>
      split at h
      · next hc => exact Sum.inl.inj h ▸ .anonymous hb hc
      · next token hc => exact Sum.inl.inj h ▸ .presented hb hc
  | lookup route token now =>
    simp only [step] at h
    split at h
    · next hf => exact Sum.inl.inj h ▸ .unknown hf
    · next user expiresAt hf =>
      split at h
      · next hexp => exact Sum.inl.inj h ▸ .expired hf hexp
      · next hexp => exact Sum.inl.inj h ▸ .alive hf (not_le.1 hexp)
  | reject route tokenHash => exact Sum.inl.inj h ▸ .rejected
  | refresh route token now user => exact Sum.inl.inj h ▸ .refreshed
  | handler route user =>
    simp only [step] at h
    split at h
    · cases h
    · next next hn =>
      obtain rfl : next = .inl phase' := h
      exact .handled (handlesTo_of_handle hn)
  | insertAdmin username password now =>
    simp only [step] at h
    split at h
    · cases h
    · next db user hc => exact Sum.inl.inj h ▸ .inserted hc
  | loginUser id now =>
    simp only [step] at h
    split at h
    · cases h
    · next user hu => exact Sum.inl.inj h ▸ .found hu
  | touch user now => exact Sum.inl.inj h ▸ .touched
  | issueSession user now =>
    simp only [step] at h
    split at h <;> cases h
  | insertUser username password role now =>
    simp only [step] at h
    split at h <;> cases h
  | setOwnPassword id password => exact Sum.inl.inj h ▸ .ownPasswordSet
  | setRole id role password => exact .roleSet h
  | setPassword id password => exact Sum.inl.inj h ▸ .passwordSet
  | purge id => exact Sum.inl.inj h ▸ .purged
  -- the last accesses answer the request
  | deleteSession tokenHash | purgeOwn id | reload id | delete id => cases h

end AuthSetting

/-! ## Writes -/

/-- A write of the tables, by a storage call. -/
inductive AuthWrite
  | createUser (username passwordHash : String) (role : Role) (now : ℤ)
  | updateUserRole (id : ℤ) (role : Role)
  | setUserPassword (id : ℤ) (passwordHash : String)
  | touchLastLogin (id now : ℤ)
  | deleteUser (id : ℤ)
  | createSession (userId : ℤ) (tokenHash : String) (createdAt expiresAt : ℤ)
  | refreshSessionExpiry (tokenHash : String) (expiresAt : ℤ)
  | deleteSession (tokenHash : String)
  | deleteSessionsForUser (userId : ℤ)
  | pruneExpiredSessions (now : ℤ)

/-- The tables after a write, if it is not refused. -/
def AuthDb.write (db : AuthDb) : AuthWrite → AuthDb
  | .createUser username passwordHash role now =>
    ((db.createUser username passwordHash role now).toOption.map Prod.fst).getD db
  | .updateUserRole id role => db.updateUserRole id role
  | .setUserPassword id passwordHash => db.setUserPassword id passwordHash
  | .touchLastLogin id now => db.touchLastLogin id now
  | .deleteUser id => db.deleteUser id
  | .createSession userId tokenHash createdAt expiresAt =>
    (db.createSession userId tokenHash createdAt expiresAt).toOption.getD db
  | .refreshSessionExpiry tokenHash expiresAt => db.refreshSessionExpiry tokenHash expiresAt
  | .deleteSession tokenHash => db.deleteSession tokenHash
  | .deleteSessionsForUser userId => db.deleteSessionsForUser userId
  | .pruneExpiredSessions now => db.pruneExpiredSessions now

/-- The write of a storage call whose error is dropped. -/
def AuthInput.kept (i : AuthInput) (w : AuthWrite) : Option AuthWrite :=
  if i.stored then some w else none

theorem AuthInput.kept_eq_some {i : AuthInput} {w w' : AuthWrite} :
    i.kept w = some w' ↔ i.stored ∧ w = w' := by
  rw [kept, Option.ite_none_right_eq_some, Option.some_inj]

theorem AuthInput.kept_of_stored {i : AuthInput} (h : i.stored) (w : AuthWrite) :
    i.kept w = some w := if_pos h

/-- The write of a step, if it makes one. -/
def AuthPhase.write (P : AuthSetting) (σ : AuthState) (i : AuthInput) :
    AuthPhase → Option AuthWrite
  | .reject _ tokenHash => i.kept (.deleteSession tokenHash)
  | .refresh _ token now _ =>
    i.kept (.refreshSessionExpiry (P.hashSessionToken token) (now + sessionTtlSecs))
  | .insertAdmin username password now =>
    some (.createUser username (P.hashPassword password i.salt) .admin now)
  | .touch user now => i.kept (.touchLastLogin user.id now)
  | .issueSession user now => some (.createSession user.id (P.hashSessionToken (P.token σ.drawn))
      now (now + sessionTtlSecs))
  | .deleteSession tokenHash => i.kept (.deleteSession tokenHash)
  | .setOwnPassword id password => some (.setUserPassword id (P.hashPassword password i.salt))
  | .purgeOwn id => i.kept (.deleteSessionsForUser id)
  | .insertUser username password role now =>
    some (.createUser username (P.hashPassword password i.salt) role now)
  | .setRole id role _ => some (.updateUserRole id role)
  | .setPassword id password => some (.setUserPassword id (P.hashPassword password i.salt))
  | .purge id => i.kept (.deleteSessionsForUser id)
  | .delete id => some (.deleteUser id)
  | .arrived _ | .lookup _ _ _ | .handler _ _ | .loginUser _ _ | .reload _ => none

/-- How many tokens a step draws. -/
def AuthPhase.draws : AuthPhase → ℕ
  | .issueSession _ _ => 1
  | _ => 0

namespace AuthSetting

variable {P : AuthSetting} {σ : AuthState} {i : AuthInput}

/-- A step does nothing but its write, and draw a token. -/
theorem step_state (phase : AuthPhase) : (P.step σ i phase).1 =
    ⟨σ.clock, ((phase.write P σ i).map σ.db.write).getD σ.db, σ.drawn + phase.draws⟩ := by
  cases phase with
  | reject _ _ | refresh _ _ _ _ | touch _ _ | deleteSession _ | purgeOwn _ | purge _ =>
    simp only [step, AuthState.bestEffort, AuthPhase.write, AuthInput.kept]
    split <;> rfl
  | arrived req =>
    simp only [step]
    split
    · rfl
    · split <;> rfl
  | lookup route token now =>
    simp only [step]
    split
    · rfl
    · split <;> rfl
  | handler route user =>
    simp only [step]
    split <;> rfl
  | loginUser id now =>
    simp only [step]
    split <;> rfl
  | insertAdmin username password now =>
    simp only [step, AuthPhase.write, Option.map_some, Option.getD_some, AuthDb.write]
    split
    · next h => rw [h]; rfl
    · next h => rw [h]; rfl
  | insertUser username password role now =>
    simp only [step, AuthPhase.write, Option.map_some, Option.getD_some, AuthDb.write]
    split
    · next h => rw [h]; rfl
    · next h => rw [h]; rfl
  | issueSession user now =>
    simp only [step, AuthPhase.write, Option.map_some, Option.getD_some, AuthDb.write]
    split
    · next h => rw [h]; rfl
    · next h => rw [h]; rfl
  | _ => rfl

/-- What a request does in one step. -/
theorem program_step {k : ℕ} {σ' : AuthState} {l : AuthThread}
    {o : AuthThread ⊕ (AuthResponse × Option String)}
    (h : P.program.step σ k l i = some (σ', o)) :
    σ' = ⟨σ.clock, ((l.phase.write P σ i).map σ.db.write).getD σ.db, σ.drawn + l.phase.draws⟩ ∧
      ∀ l', o = .inl l' → LeadsTo P σ i.salt l.phase l'.phase := by
  obtain rfl : (P.threadStep σ i l).1 = σ' := congrArg Prod.fst (Option.some.inj h)
  obtain rfl : (P.threadStep σ i l).2 = o := congrArg Prod.snd (Option.some.inj h)
  refine ⟨step_state l.phase, fun l' hl' => leadsTo_of_step ?_⟩
  simp only [threadStep] at hl'
  cases hnext : (P.step σ i l.phase).2 with
  | inl phase =>
    rw [hnext] at hl'
    obtain rfl := Sum.inl.inj hl'
    rfl
  | inr response =>
    rw [hnext] at hl'
    cases hl'

end AuthSetting

/-- The users and sessions, and the requests being served. -/
abbrev AuthPool := Pool AuthState AuthThread

abbrev AuthAction := Pool.Action AuthRequest AuthInput AuthEvent

namespace AuthPool

/-- An instance that has just been installed. -/
def fresh (clock : ℤ) : AuthPool := Pool.idle ⟨clock, .empty, 0⟩

/-- The write of an action, if it makes one. -/
def write (P : AuthSetting) (t : AuthPool) : AuthAction → Option AuthWrite
  | .act k i => (t.threads.lookup k).bind fun l => l.phase.write P t.shared i
  | .env (.pruneExpiredSessions now) => some (.pruneExpiredSessions now)
  | .enter _ _ | .abort _ | .env (.tick _) => none

/-- An action does nothing to the tables but its write. -/
theorem step_db {P : AuthSetting} {t t' : AuthPool} {a : AuthAction}
    (h : P.program.poolStep t a = some t') :
    t'.shared.db = ((write P t a).map t.shared.db.write).getD t.shared.db := by
  cases a with
  | enter k q =>
    obtain ⟨-, rfl⟩ := Program.enter_eq_some.1 h
    rfl
  | act k i =>
    obtain ⟨l, σ, o, hl, hs, rfl⟩ := Program.act_eq_some.1 h
    rw [Pool.settle_shared, write, hl, (AuthSetting.program_step hs).1, Option.bind_some]
  | abort k =>
    obtain ⟨l, σ, -, hs, -⟩ := Program.abort_eq_some.1 h
    exact absurd hs (Option.some_ne_none σ).symm
  | env v =>
    obtain ⟨σ, hs, rfl⟩ := Program.env_eq_some.1 h
    have hs : t.shared.env v = some σ := hs
    cases v with
    | tick now =>
      rw [AuthState.env, Option.ite_none_right_eq_some] at hs
      rw [← Option.some.inj hs.2]
      rfl
    | pruneExpiredSessions now =>
      rw [AuthState.env, Option.ite_none_right_eq_some] at hs
      rw [← Option.some.inj hs.2]
      rfl

/-! ## For trying things -/

/-- Passwords and tokens stored as they are, and the tokens `a`, `aa`, … -/
def toySetting : AuthSetting where
  bypass := false
  hashPassword password _ := password
  verifyPassword password stored := password = stored
  hashSessionToken token := token
  token n := String.ofList (List.replicate (n + 1) 'a')

/-- `n` steps of the request `k`, whose storage calls succeed. -/
def steps (k n : ℕ) : List AuthAction := List.replicate n (.act k ⟨"", true⟩)

/-- The first administrator is created, with the id 1, and logged in by the
    token `a`. -/
def bootstrapped : List AuthAction :=
  .enter 0 ⟨none, .bootstrap "alice" "secret"⟩ :: steps 0 4

end AuthPool

end N3ur0n
