import N3ur0n.Auth.Logins

/-!
# Changing a password

`change_password` writes the new hash, then deletes the sessions of the user, in
two steps. It is meant to cut off the old password, and to keep the session that
makes the change. What comes between the steps, or is still on its way after
them, decides: a login that verified the old password may create its session
once the others are deleted; and the session that makes the change is deleted
like them. Storage calls are taken to succeed; the code only logs it when the
sessions could not be deleted, and then all of them live on.

* `PasswordPool.InForce`: since when the password of a user is in force, and
  what came after;
* `PasswordPool.CutsOff`: who is logged in once the password is changed;
* `PasswordPool.cutsOff_of_clean`: when it is so, and `PasswordPool.login_lives_on`, when it
  is not.
-/

namespace N3ur0n

namespace AuthDb

variable {db : AuthDb} {w : AuthWrite} {id : ℤ} {tokenHash : String}

/-- The token has a session, of this user. -/
def Has (db : AuthDb) (tokenHash : String) (id : ℤ) : Prop :=
  ∃ s ∈ db.sessions, s.tokenHash = tokenHash ∧ s.userId = id

/-- A request with the token is authenticated as this user. -/
def Admits (db : AuthDb) (tokenHash : String) (id now : ℤ) : Prop :=
  ∃ user expiresAt, db.findSession tokenHash = some (user, expiresAt) ∧ user.id = id ∧
    now < expiresAt

/-- The session of the token has expired. -/
def Expired (db : AuthDb) (tokenHash : String) (now : ℤ) : Prop :=
  ∃ s ∈ db.sessions, s.tokenHash = tokenHash ∧ s.expiresAt ≤ now

/-- There is such a user. -/
def Knows (db : AuthDb) (id : ℤ) : Prop := ∃ u ∈ db.users, u.id = id

/-- The password of the user, if he exists, is stored under this hash. -/
def Stored (db : AuthDb) (id : ℤ) (hash : String) : Prop :=
  ∀ u ∈ db.users, u.id = id → u.passwordHash = hash

theorem Knows.le_lastId (h : db.Knows id) : id ≤ db.lastId := by
  obtain ⟨u, hu, rfl⟩ := h
  exact db.ids_le u hu

/-- A session is that of a user who exists. -/
theorem Has.knows (h : db.Has tokenHash id) : db.Knows id := by
  obtain ⟨s, hs, -, rfl⟩ := h
  exact List.mem_map.1 (db.foreign s hs)

theorem id_of_getUserById {user : UserRecord} (h : db.getUserById id = some user) :
    user.id = id := by
  obtain ⟨u, -, hid, rfl⟩ := getUserById_eq_some.1 h
  exact hid

theorem admits_iff {now : ℤ} : db.Admits tokenHash id now ↔
    ∃ s ∈ db.sessions, s.tokenHash = tokenHash ∧ s.userId = id ∧ now < s.expiresAt := by
  constructor
  · rintro ⟨user, expiresAt, hf, hid, hnow⟩
    obtain ⟨s, hs, hhash, rfl, hget⟩ := findSession_eq_some.1 hf
    exact ⟨s, hs, hhash, (id_of_getUserById hget).symm.trans hid, hnow⟩
  · rintro ⟨s, hs, hhash, rfl, hnow⟩
    obtain ⟨u, hu, hid⟩ := List.mem_map.1 (db.foreign s hs)
    exact ⟨u.toUserRecord, s.expiresAt, findSession_eq_some.2
      ⟨s, hs, hhash, rfl, getUserById_eq_some.2 ⟨u, hu, hid, rfl⟩⟩, hid, hnow⟩

theorem Admits.has {now : ℤ} (h : db.Admits tokenHash id now) : db.Has tokenHash id := by
  obtain ⟨s, hs, hhash, hid, -⟩ := admits_iff.1 h
  exact ⟨s, hs, hhash, hid⟩

/-- A session admits as long as it has not expired. -/
theorem Has.admits {now : ℤ} (h : db.Has tokenHash id) (hexp : ¬db.Expired tokenHash now) :
    db.Admits tokenHash id now := by
  obtain ⟨s, hs, hhash, hid⟩ := h
  exact admits_iff.2 ⟨s, hs, hhash, hid, not_le.1 fun hle => hexp ⟨s, hs, hhash, hle⟩⟩

/-! ## What a write keeps -/

theorem Has.of_deleteSessions {c : SessionRow → Bool} (h : (db.deleteSessions c).Has tokenHash id) :
    db.Has tokenHash id := by
  obtain ⟨s, hs, hhash, hid⟩ := h
  exact ⟨s, List.mem_of_mem_filter hs, hhash, hid⟩

/-- Only its creation gives a token a session. -/
theorem has_of_write (h : (db.write w).Has tokenHash id) :
    db.Has tokenHash id ∨ ∃ now expiresAt, w = .createSession id tokenHash now expiresAt ∧
      ∃ db', db.createSession id tokenHash now expiresAt = .ok db' := by
  cases w with
  | createUser username passwordHash role now =>
    simp only [write, createUser] at h
    split at h <;> exact .inl h
  | updateUserRole id role => exact .inl h
  | setUserPassword id passwordHash => exact .inl h
  | touchLastLogin id now => exact .inl h
  | deleteUser id =>
    obtain ⟨s, hs, hhash, hid⟩ := h
    exact .inl ⟨s, List.mem_of_mem_filter hs, hhash, hid⟩
  | createSession id' hash now expiresAt =>
    cases hc : db.createSession id' hash now expiresAt with
    | error e =>
      simp only [write, hc] at h
      exact .inl h
    | ok db' =>
      simp only [write, hc] at h
      simp only [createSession] at hc
      split_ifs at hc with ht hu
      obtain rfl := Except.ok.inj hc
      obtain ⟨s, hs, rfl, rfl⟩ := h
      rcases List.mem_append.1 hs with hs | hs
      · exact .inl ⟨s, hs, rfl, rfl⟩
      · obtain rfl := List.mem_singleton.1 hs
        exact .inr ⟨now, expiresAt, rfl, _, by rw [createSession, dif_neg ht, dif_pos hu]⟩
  | refreshSessionExpiry hash expiresAt =>
    obtain ⟨s, hs, hhash, hid⟩ := h
    obtain ⟨s, hs', rfl⟩ := List.mem_map.1 hs
    refine .inl ⟨s, hs', ?_, ?_⟩
    · split at hhash <;> exact hhash
    · split at hid <;> exact hid
  | deleteSession hash => exact .inl h.of_deleteSessions
  | deleteSessionsForUser id => exact .inl h.of_deleteSessions
  | pruneExpiredSessions now => exact .inl h.of_deleteSessions

theorem not_has_deleteSessionsForUser :
    ¬(db.write (.deleteSessionsForUser id)).Has tokenHash id := by
  rintro ⟨s, hs, -, hid⟩
  have hne : (!decide (s.userId = id)) = true := (List.mem_filter.1 hs).2
  rw [decide_eq_true hid] at hne
  cases hne

theorem has_createSession {now expiresAt : ℤ} {db' : AuthDb}
    (h : db.createSession id tokenHash now expiresAt = .ok db') :
    (db.write (.createSession id tokenHash now expiresAt)).Has tokenHash id := by
  simp only [write, h]
  rw [createSession] at h
  split_ifs at h
  obtain rfl := Except.ok.inj h
  exact ⟨_, List.mem_append_right _ (List.mem_singleton.2 rfl), rfl, rfl⟩

/-- A row that is rewritten is that of the user. -/
theorem user_of_updateUser (f : UserRow → UserRow) (hf : ∀ u, (f u).id = u.id)
    (hname : ∀ u, (f u).username = u.username) {u : UserRow}
    (hu : u ∈ (db.updateUser id f hf hname).users) :
    ∃ v ∈ db.users, v.id = u.id ∧ (u = v ∨ v.id = id ∧ u = f v) := by
  obtain ⟨v, hv, rfl⟩ := List.mem_map.1 hu
  refine ⟨v, hv, ?_, ?_⟩
  · split
    · exact (hf v).symm
    · rfl
  · split
    · next hid => exact .inr ⟨hid, rfl⟩
    · exact .inl rfl

/-- A user that there is after a write is new, or was there with the same
    password, unless it is the one written. -/
theorem user_of_write {u : UserRow} (hu : u ∈ (db.write w).users) :
    u.id = db.lastId + 1 ∨ ∃ v ∈ db.users, v.id = u.id ∧
      (u.passwordHash = v.passwordHash ∨ w = .setUserPassword u.id u.passwordHash) := by
  have hsame (hu : u ∈ db.users) : ∃ v ∈ db.users, v.id = u.id ∧
      (u.passwordHash = v.passwordHash ∨ w = .setUserPassword u.id u.passwordHash) :=
    ⟨u, hu, rfl, .inl rfl⟩
  cases w with
  | createUser username passwordHash role now =>
    simp only [write, createUser] at hu
    split at hu
    · exact .inr (hsame hu)
    · rcases List.mem_append.1 hu with hu | hu
      · exact .inr (hsame hu)
      · exact .inl (by rw [List.mem_singleton.1 hu])
  | updateUserRole id role =>
    obtain ⟨v, hv, hid, hu⟩ := user_of_updateUser (fun u => { u with role := role })
      (fun _ => rfl) (fun _ => rfl) hu
    refine .inr ⟨v, hv, hid, .inl ?_⟩
    rcases hu with rfl | ⟨-, rfl⟩ <;> rfl
  | setUserPassword id passwordHash =>
    obtain ⟨v, hv, hid, hu⟩ := user_of_updateUser
      (fun u => { u with passwordHash := passwordHash }) (fun _ => rfl) (fun _ => rfl) hu
    rcases hu with rfl | ⟨rfl, rfl⟩
    · exact .inr ⟨_, hv, hid, .inl rfl⟩
    · exact .inr ⟨_, hv, hid, .inr rfl⟩
  | touchLastLogin id now =>
    obtain ⟨v, hv, hid, hu⟩ := user_of_updateUser (fun u => { u with lastLogin := some now })
      (fun _ => rfl) (fun _ => rfl) hu
    refine .inr ⟨v, hv, hid, .inl ?_⟩
    rcases hu with rfl | ⟨-, rfl⟩ <;> rfl
  | deleteUser id => exact .inr (hsame (List.mem_of_mem_filter hu))
  -- the write of a session leaves the users, whether its keys are free or not
  | createSession id' hash now expiresAt =>
    refine .inr (hsame ?_)
    cases hc : db.createSession id' hash now expiresAt with
    | error e =>
      simp only [write, hc] at hu
      exact hu
    | ok db' =>
      simp only [write, hc] at hu
      rw [createSession] at hc
      split_ifs at hc
      obtain rfl := Except.ok.inj hc
      exact hu
  | _ => exact .inr (hsame hu)

theorem lastId_le_write : db.lastId ≤ (db.write w).lastId := by
  cases w with
  | createUser username passwordHash role now =>
    simp only [write, createUser]
    split
    · exact le_rfl
    · exact Int.le_add_one le_rfl
  | createSession id' hash now expiresAt =>
    simp only [write, createSession]
    split_ifs <;> exact le_rfl
  | _ => exact le_rfl

/-- Users that there were not are new. -/
theorem Knows.of_write (h : (db.write w).Knows id) (hle : id ≤ db.lastId) : db.Knows id := by
  obtain ⟨u, hu, rfl⟩ := h
  rcases user_of_write hu with hnew | ⟨v, hv, hid, -⟩
  · omega
  · exact ⟨v, hv, hid⟩

/-- The hash of a password stays until another one is written. -/
theorem Stored.write {hash : String} (h : db.Stored id hash) (hle : id ≤ db.lastId)
    (hw : ∀ g, w ≠ .setUserPassword id g) : (db.write w).Stored id hash := by
  rintro u hu rfl
  rcases user_of_write hu with hnew | ⟨v, hv, hid, hsame | hset⟩
  · omega
  · exact hsame.trans (h v hv hid)
  · exact absurd hset (hw _)

theorem stored_setUserPassword {hash : String} :
    (db.write (.setUserPassword id hash)).Stored id hash := by
  intro u hu hid
  obtain ⟨v, -, rfl⟩ := List.mem_map.1 hu
  split at hid
  · next h => rw [if_pos h]
  · next h => exact absurd hid h

end AuthDb

/-- The user whose password is written. -/
def AuthWrite.setsPassword : AuthWrite → Option ℤ
  | .setUserPassword id _ => some id
  | _ => none

/-! ## Logins and changes -/

/-- A password was verified, or need not be, and the user is to be logged in. -/
def AuthPhase.LogsIn (id : ℤ) : AuthPhase → Prop
  | .loginUser id' _ => id' = id
  | .touch user _ | .issueSession user _ => user.id = id
  | _ => False

/-- The request is about to log the user in, for the password stored under this
    hash; for none if it is the one that installs the instance. -/
def PasswordPhase.Pursues (P : AuthSetting) (id : ℤ) (verified : Option String) :
    PasswordPhase → Prop
  | .call use phase => use.verified = verified ∧ phase.LogsIn id
  | .verify check => P.verifyPassword check.password check.hash ∧
      check.use.verified = verified ∧ check.next.LogsIn id

/-- A request to change his password was found to be that of the user, by the
    session of a token if authentication is not disabled. -/
def AuthPhase.Changes (P : AuthSetting) (id : ℤ) (own : Option String) : AuthPhase → Prop
  | .refresh (.changePassword _ _) token _ user =>
    user.id = id ∧ some (P.hashSessionToken token) = own
  | .handler (.changePassword _ _) (some user) => user.id = id ∧ user.sessionTokenHash = own
  | _ => False

def PasswordUse.Changes (id : ℤ) (own : Option String) : PasswordUse → Prop
  | .change user => user.id = id ∧ user.sessionTokenHash = own
  | _ => False

def PasswordPhase.Changes (P : AuthSetting) (id : ℤ) (own : Option String) : PasswordPhase → Prop
  | .call use phase => use.Changes id own ∨ phase.Changes P id own
  | .verify check => check.use.Changes id own ∨ check.next.Changes P id own

section Steps

variable {P : AuthSetting} {σ : AuthState} {salt : String} {phase phase' : PasswordPhase} {id : ℤ}

theorem AuthPhase.not_logsIn_updatePassword {id' : ℤ} {password : Option String} {next : AuthPhase}
    (h : updatePassword id' password = .inl next) : ¬next.LogsIn id := by
  obtain rfl | ⟨pw, rfl⟩ := updatePassword_eq_inl h
  · exact not_false
  · exact not_false

/-- The hash that is fetched is that of the user. -/
theorem AuthDb.fetchPasswordHash_eq_some {db : AuthDb} {username hash : String}
    (h : db.fetchPasswordHash username = some (id, hash)) :
    ∃ u ∈ db.users, u.id = id ∧ u.passwordHash = hash := by
  obtain ⟨u, hu, he⟩ := Option.map_eq_some_iff.1 h
  obtain ⟨rfl, rfl⟩ := Prod.mk.inj he
  exact ⟨u, List.mem_of_find?_eq_some hu, rfl, rfl⟩

/-- A login goes on as it was, has fetched the hash in force, or is that of a
    user who has just been inserted. -/
theorem Goes.pursues {verified : Option String} (h : Goes P σ salt phase phase')
    (hp : phase'.Pursues P id verified) : phase.Pursues P id verified ∨
      (∃ u ∈ σ.db.users, u.id = id ∧ some u.passwordHash = verified) ∨ id = σ.db.lastId + 1 := by
  cases h with
  | fetched hf =>
    cases hf with
    | login hf =>
      obtain ⟨-, hv, hid⟩ := hp
      obtain ⟨u, hu, rfl, rfl⟩ := AuthDb.fetchPasswordHash_eq_some hf
      exact .inr (.inl ⟨u, hu, hid, hv⟩)
    | change => exact hp.2.2.elim
  | verified hv => exact .inl ⟨hv, hp⟩
  | called hleads hfetch =>
    obtain ⟨hv, hlogs⟩ := hp
    cases hleads with
    | inserted hc =>
      rw [AuthDb.createUser] at hc
      split_ifs at hc
      obtain ⟨-, rfl⟩ := Prod.mk.inj (Except.ok.inj hc)
      exact .inr (.inr hlogs.symm)
    | found hu => exact .inl ⟨hv, (AuthDb.id_of_getUserById hu).symm.trans hlogs⟩
    | touched => exact .inl ⟨hv, hlogs⟩
    | handled hh =>
      cases hh with
      | login => exact absurd (hfetch _ _ rfl) (Option.some_ne_none _)
      | updateUser _ hu => exact absurd hlogs (AuthPhase.not_logsIn_updatePassword hu)
      | _ => exact hlogs.elim
    | roleSet hu => exact absurd hlogs (AuthPhase.not_logsIn_updatePassword hu)
    | _ => exact hlogs.elim

/-- A change of password goes on as it was, or has found the session of its
    request, unless authentication is disabled. -/
theorem Goes.changes {own : Option String} (h : Goes P σ salt phase phase')
    (hc : phase'.Changes P id own) : phase.Changes P id own ∨ (id = 0 ∧ own = none) ∨
      ∃ tokenHash, own = some tokenHash ∧ σ.db.Has tokenHash id := by
  cases h with
  | fetched hf =>
    cases hf with
    | login => exact hc.elim False.elim False.elim
    | change hu hf =>
      subst hu
      exact .inl (.inr (hc.resolve_right not_false))
  | verified hv => exact .inl hc
  | @called use phase phase' hleads hfetch =>
    rcases hc with hc | hc
    · exact .inl (.inl hc)
    have hupdate {id' password} (hu : updatePassword id' password = .inl phase') :
        ¬phase'.Changes P id own := by
      obtain rfl | ⟨pw, rfl⟩ := updatePassword_eq_inl hu
      · exact not_false
      · exact not_false
    cases hleads with
    | @bypassed req =>
      cases hroute : req.route with
      | changePassword currentPassword newPassword =>
        rw [hroute] at hc
        exact .inr (.inl ⟨hc.1.symm, hc.2.symm⟩)
      | _ =>
        rw [hroute] at hc
        exact hc.elim
    -- the session that was looked up is the one whose user changes the password
    | @alive route token now user expiresAt hs hnow =>
      cases route with
      | changePassword currentPassword newPassword =>
        obtain ⟨s, hs, hhash, -, hget⟩ := AuthDb.findSession_eq_some.1 hs
        exact .inr (.inr ⟨_, hc.2.symm, s, hs, hhash,
          (AuthDb.id_of_getUserById hget).symm.trans hc.1⟩)
      | _ => exact hc.elim
    | @refreshed route token now user =>
      cases route with
      | changePassword currentPassword newPassword => exact .inl (.inr hc)
      | _ => exact hc.elim
    -- without a user no route goes on to change a password
    | @anonymous req =>
      cases hroute : req.route with
      | _ =>
        rw [hroute] at hc
        exact hc.elim
    | @unknown route =>
      cases route with
      | _ => exact hc.elim
    | @rejected route =>
      cases route with
      | _ => exact hc.elim
    | handled hh =>
      cases hh with
      | updateUser _ hu => exact absurd hc (hupdate hu)
      | _ => exact hc.elim
    | roleSet hu => exact absurd hc (hupdate hu)
    | _ => exact hc.elim

end Steps

namespace PasswordPool

variable {P : AuthSetting} {clock : ℤ} {t t' : PasswordPool} {a : PasswordAction}
  {as : List PasswordAction}

/-- The action sets the password of the user who changes it. -/
def Sets (P : AuthSetting) (t : PasswordPool) (a : PasswordAction) (k : ℕ) (user : AuthedUser)
    (hash : String) : Prop :=
  ∃ salt l newPassword, a = .act k salt ∧ t.threads.lookup k = some l ∧
    l.phase = .call (.change user) (.setOwnPassword user.id newPassword) ∧
    P.hashPassword newPassword salt = hash

/-- The action answers that the password is changed, having deleted the sessions. -/
def Answers (t : PasswordPool) (a : PasswordAction) (k : ℕ) (user : AuthedUser) : Prop :=
  ∃ salt l, a = .act k salt ∧ t.threads.lookup k = some l ∧
    l.phase = .call (.change user) (.purgeOwn user.id)

/-- The action deletes the sessions of the user, for a change of his password. -/
def Purges (t : PasswordPool) (a : PasswordAction) (id : ℤ) : Prop :=
  ∃ k salt l use, a = .act k salt ∧ t.threads.lookup k = some l ∧
    l.phase = .call use (.purgeOwn id)

/-- The action creates a session for the user, of a login that verified his
    password against the hash. -/
def Issues (P : AuthSetting) (id : ℤ) (hash tokenHash : String) (t : PasswordPool)
    (a : PasswordAction) : Prop :=
  ∃ k salt l user now db, a = .act k salt ∧ t.threads.lookup k = some l ∧
    l.phase = .call (.login hash) (.issueSession user now) ∧ user.id = id ∧
    P.hashSessionToken (P.token t.shared.drawn) = tokenHash ∧
    t.shared.db.createSession id tokenHash now (now + sessionTtlSecs) = .ok db

/-- The action takes the session of the user away, and is not the purge of a
    change of his password: he logs out, the session has expired, an
    administrator resets his password or deletes him. -/
def Ends (P : AuthSetting) (id : ℤ) (tokenHash : String) (t : PasswordPool) (a : PasswordAction) :
    Prop :=
  t.shared.db.Has tokenHash id ∧ ¬Purges t a id ∧
    ∃ t', P.passwordProgram.poolStep t a = some t' ∧ ¬t'.shared.db.Has tokenHash id

/-- In the run `as`, the password in force is the one that the request `k` set
    under this hash: the state was `s` then, and `cs` came after, in which the
    password was not set again. -/
def InForce (P : AuthSetting) (clock : ℤ) (as : List PasswordAction) (k : ℕ) (user : AuthedUser)
    (hash : String) (s : PasswordPool) (cs : List PasswordAction) : Prop :=
  ∃ bs a t, as = bs ++ a :: cs ∧
    Run.run P.passwordProgram.poolStep (installed clock) bs = some t ∧ Sets P t a k user hash ∧
    P.passwordProgram.poolStep t a = some s ∧
    Run.Along P.passwordProgram.poolStep
      (fun t a => (write P t a).bind AuthWrite.setsPassword ≠ some user.id) s cs

/-- Once the request that set the password in force has answered, and no login of
    the user is on its way, the sessions by which he is authenticated are that of
    the request and those of the logins that verified this password, as long as
    they have not ended. -/
def CutsOff (P : AuthSetting) (clock : ℤ) (as : List PasswordAction) (t : PasswordPool) : Prop :=
  ∀ k user hash s cs, InForce P clock as k user hash s cs →
    Run.Occurs P.passwordProgram.poolStep (fun t a => Answers t a k user) s cs →
    (∀ k l g, t.threads.lookup k = some l → ¬l.phase.Pursues P user.id (some g)) →
    ∀ tokenHash now,
      (t.shared.db.Admits tokenHash user.id now → user.sessionTokenHash = some tokenHash ∨
        Run.Occurs P.passwordProgram.poolStep (Issues P user.id hash tokenHash) s cs) ∧
      (user.sessionTokenHash = some tokenHash ∨
          Run.Occurs P.passwordProgram.poolStep (Issues P user.id hash tokenHash) s cs →
        ¬Run.Occurs P.passwordProgram.poolStep (Ends P user.id tokenHash) (installed clock) as →
        ¬t.shared.db.Expired tokenHash now → t.shared.db.Admits tokenHash user.id now)

/-- If an action, after the run `as`, deletes the sessions of a user whose
    password is changed, it finds none that it should keep; and if it is the last
    to set his password, there is no login on its way that verified another one. -/
structure Clean (P : AuthSetting) (clock : ℤ) (as : List PasswordAction) (t : PasswordPool)
    (a : PasswordAction) : Prop where
  /-- The sessions by which his password is changed are gone. -/
  changing : ∀ id k l tokenHash, Purges t a id → t.threads.lookup k = some l →
    l.phase.Changes P id (some tokenHash) → ¬t.shared.db.Has tokenHash id
  /-- There is no session of a login that verified the password in force. -/
  issued : ∀ k user hash s cs tokenHash, Purges t a user.id → InForce P clock as k user hash s cs →
    Run.Occurs P.passwordProgram.poolStep (Issues P user.id hash tokenHash) s cs →
    ¬t.shared.db.Has tokenHash user.id
  pursuing : ∀ k user hash s cs, Answers t a k user → InForce P clock as k user hash s cs →
    ∀ k' l verified, t.threads.lookup k' = some l → l.phase.Pursues P user.id verified →
      t.shared.db.Knows user.id → verified = some hash

/-! ## One action -/

/-- Nothing comes after the purge. -/
theorem not_goes_purgeOwn {σ : AuthState} {salt : String} {use : PasswordUse} {id : ℤ}
    {phase : PasswordPhase} : ¬Goes P σ salt (.call use (.purgeOwn id)) phase := by
  rintro (- | - | ⟨h, -⟩)
  cases h

theorem Answers.purges {k : ℕ} {user : AuthedUser} (h : Answers t a k user) :
    Purges t a user.id := by
  obtain ⟨salt, l, ha, hl, hp⟩ := h
  exact ⟨k, salt, l, _, ha, hl, hp⟩

/-- A session stays, unless it ends or is purged. -/
theorem has_step {id : ℤ} {tokenHash : String} (h : t.shared.db.Has tokenHash id)
    (hpurge : ¬Purges t a id) (hstep : P.passwordProgram.poolStep t a = some t') :
    t'.shared.db.Has tokenHash id ∨ Ends P id tokenHash t a := by
  by_cases h' : t'.shared.db.Has tokenHash id
  · exact .inl h'
  · exact .inr ⟨h, hpurge, t', hstep, h'⟩

theorem lastId_step (hstep : P.passwordProgram.poolStep t a = some t') :
    t.shared.db.lastId ≤ t'.shared.db.lastId :=
  db_step (I := fun db => t.shared.db.lastId ≤ db.lastId) le_rfl hstep
    fun _ _ => AuthDb.lastId_le_write

/-- A user who was known is the only one that can be, under his id. -/
theorem knows_step {id : ℤ} (hle : id ≤ t.shared.db.lastId)
    (hstep : P.passwordProgram.poolStep t a = some t') (h : t'.shared.db.Knows id) :
    t.shared.db.Knows id := by
  rw [step_db hstep] at h
  cases hw : write P t a with
  | none =>
    rw [hw] at h
    exact h
  | some w =>
    rw [hw] at h
    exact h.of_write hle

/-- A session is created by a request that is about to log its user in. -/
theorem has_of_step {id : ℤ} {tokenHash : String} (hstep : P.passwordProgram.poolStep t a = some t')
    (h : t'.shared.db.Has tokenHash id) : t.shared.db.Has tokenHash id ∨
      ∃ k l verified, t.threads.lookup k = some l ∧ l.phase.Pursues P id verified ∧
        ∀ hash, verified = some hash → Issues P id hash tokenHash t a := by
  rw [step_db hstep] at h
  cases hw : write P t a with
  | none =>
    rw [hw] at h
    exact .inl h
  | some w =>
    rw [hw] at h
    obtain h | ⟨now, expiresAt, rfl, db, hdb⟩ := AuthDb.has_of_write h
    · exact .inl h
    · cases a with
      | act k salt =>
        obtain ⟨l, hl, hw⟩ := Option.bind_eq_some_iff.1 hw
        obtain ⟨refreshed, phase⟩ := l
        cases phase with
        | verify check => cases hw
        | call use phase =>
          cases phase with
          | issueSession user now' =>
            obtain ⟨rfl, hhash, rfl, rfl⟩ := AuthWrite.createSession.inj (Option.some.inj hw)
            refine .inr ⟨k, _, use.verified, hl, ⟨rfl, rfl⟩, fun hash hv => ?_⟩
            cases use with
            | login g =>
              obtain rfl := Option.some.inj hv
              exact ⟨k, salt, _, user, _, db, rfl, hl, rfl, rfl, hhash, hdb⟩
            | _ => cases hv
          | _ => cases hw
      | env v =>
        cases v with
        | tick now => cases hw
        | pruneExpiredSessions now => cases hw
      | enter k q => cases hw
      | abort k => cases hw

/-- A session that is created is there. -/
theorem Issues.has {id : ℤ} {hash tokenHash : String} (h : Issues P id hash tokenHash t a)
    (hstep : P.passwordProgram.poolStep t a = some t') : t'.shared.db.Has tokenHash id := by
  obtain ⟨k, salt, ⟨refreshed, phase⟩, user, now, db, rfl, hl, rfl, rfl, rfl, hdb⟩ := h
  rw [step_db hstep, write, hl]
  exact AuthDb.has_createSession hdb

/-! ## Runs -/

variable (P clock) in
/-- Every action of the run is clean. -/
def CleanRun (as : List PasswordAction) : Prop :=
  ∀ bs a cs t, as = bs ++ a :: cs →
    Run.run P.passwordProgram.poolStep (installed clock) bs = some t → Clean P clock bs t a

theorem CleanRun.start {bs : List PasswordAction} (h : CleanRun P clock (as ++ bs)) :
    CleanRun P clock as := by
  rintro cs a ds t rfl ht
  exact h cs a (ds ++ bs) t (by rw [List.append_assoc, List.cons_append]) ht

variable (P clock) in
/-- The session by which a password is changed is there, unless it has ended; and
    no user is going to be inserted under the id of its user. -/
def Owned (as : List PasswordAction) (t : PasswordPool) : Prop :=
  0 ≤ t.shared.db.lastId ∧ ∀ k l id own, t.threads.lookup k = some l → l.phase.Changes P id own →
    id ≤ t.shared.db.lastId ∧ ∀ tokenHash, own = some tokenHash →
      t.shared.db.Has tokenHash id ∨
        Run.Occurs P.passwordProgram.poolStep (Ends P id tokenHash) (installed clock) as

theorem owned_run (h : Run.run P.passwordProgram.poolStep (installed clock) as = some t)
    (hclean : CleanRun P clock as) : Owned P clock as t := by
  induction as using List.reverseRecOn generalizing t with
  | nil =>
    obtain rfl := Option.some.inj h
    refine ⟨le_rfl, fun k l id own hl => ?_⟩
    rw [installed, Pool.idle, Finmap.lookup_empty] at hl
    cases hl
  | append_singleton as a ih =>
    obtain ⟨u, hu, hstep⟩ := Run.run_snoc.1 h
    obtain ⟨hzero, hown⟩ := ih hu hclean.start
    have hca : Clean P clock as u a := hclean as a [] u rfl hu
    have hle := lastId_step hstep
    -- A session that is there stays, unless it ends or is purged.
    have hkeep {id : ℤ} {tokenHash : String} (hpurge : ¬Purges u a id)
        (hh : u.shared.db.Has tokenHash id ∨ Run.Occurs P.passwordProgram.poolStep
          (Ends P id tokenHash) (installed clock) as) : t.shared.db.Has tokenHash id ∨
        Run.Occurs P.passwordProgram.poolStep (Ends P id tokenHash) (installed clock)
          (as ++ [a]) := by
      rw [Run.occurs_snoc hu]
      rcases hh with hh | hh
      · exact (has_step hh hpurge hstep).imp_right .inr
      · exact .inr (.inl hh)
    refine ⟨hzero.trans hle, fun k l id own hl hc => ?_⟩
    rcases step_phase hstep hl with hl | ⟨q, hq⟩ | ⟨salt, l', rfl, hl', hgoes⟩
    · obtain ⟨hid, hh⟩ := hown k l id own hl hc
      refine ⟨hid.trans hle, fun tokenHash hto => ?_⟩
      by_cases hpurge : Purges u a id
      · -- A clean purge does not find the session.
        refine .inr ((Run.occurs_snoc hu).2 (.inl ?_))
        exact (hh tokenHash hto).resolve_left (hca.changing id k l tokenHash hpurge hl (hto ▸ hc))
      · exact hkeep hpurge (hh tokenHash hto)
    · rw [hq] at hc
      exact hc.elim False.elim False.elim
    · -- The request is not at the purge, from which it does not go on.
      have hpurge : ¬Purges u (.act k salt) id := by
        rintro ⟨k', salt', l'', use, ha, hl'', hp⟩
        obtain ⟨rfl, rfl⟩ := Pool.Action.act.inj ha
        obtain rfl := Option.some.inj (hl'.symm.trans hl'')
        rw [hp] at hgoes
        exact not_goes_purgeOwn hgoes
      rcases hgoes.changes hc with hc | ⟨rfl, rfl⟩ | ⟨tokenHash, rfl, hh⟩
      · obtain ⟨hid, hh⟩ := hown k l' id own hl' hc
        exact ⟨hid.trans hle, fun tokenHash hto => hkeep hpurge (hh tokenHash hto)⟩
      · exact ⟨hzero.trans hle, nofun⟩
      · refine ⟨hh.knows.le_lastId.trans hle, fun tokenHash' hto => ?_⟩
        obtain rfl := Option.some.inj hto
        exact hkeep hpurge (.inl hh)

variable (P) in
/-- What is known after `cs`, of a user whose password was set under the hash by
    the request `k`: it is stored so; the sessions of the logins that verified it
    are there, unless they have ended; and once the request has answered, these
    are all his sessions, and those on their way. -/
structure Since (k : ℕ) (user : AuthedUser) (hash : String) (s : PasswordPool)
    (cs : List PasswordAction) (t : PasswordPool) : Prop where
  id_le : user.id ≤ t.shared.db.lastId
  stored : t.shared.db.Stored user.id hash
  kept : ∀ tokenHash, Run.Occurs P.passwordProgram.poolStep (Issues P user.id hash tokenHash) s cs →
    t.shared.db.Has tokenHash user.id ∨
      Run.Occurs P.passwordProgram.poolStep (Ends P user.id tokenHash) s cs
  pursuing : Run.Occurs P.passwordProgram.poolStep (fun t a => Answers t a k user) s cs →
    ∀ k' l verified, t.threads.lookup k' = some l → l.phase.Pursues P user.id verified →
      t.shared.db.Knows user.id → verified = some hash
  only : Run.Occurs P.passwordProgram.poolStep (fun t a => Answers t a k user) s cs →
    ∀ tokenHash, t.shared.db.Has tokenHash user.id →
      Run.Occurs P.passwordProgram.poolStep (Issues P user.id hash tokenHash) s cs

/-- The action that sets the password. -/
theorem since_nil {k : ℕ} {user : AuthedUser} {hash : String} (hset : Sets P t a k user hash)
    (hle : user.id ≤ t.shared.db.lastId) (hstep : P.passwordProgram.poolStep t a = some t') :
    Since P k user hash t' [] t' where
  id_le := hle.trans (lastId_step hstep)
  stored := by
    obtain ⟨salt, ⟨refreshed, phase⟩, newPassword, rfl, hl, rfl, rfl⟩ := hset
    rw [step_db hstep, write, hl]
    exact AuthDb.stored_setUserPassword
  kept _ h := absurd h Run.not_occurs_nil
  pursuing h := absurd h Run.not_occurs_nil
  only h := absurd h Run.not_occurs_nil

/-- One more action, that does not set the password. -/
theorem since_snoc {k : ℕ} {user : AuthedUser} {hash : String} {s : PasswordPool}
    {cs : List PasswordAction} (h : Since P k user hash s cs t)
    (hcs : Run.run P.passwordProgram.poolStep s cs = some t)
    (hforce : InForce P clock as k user hash s cs) (hclean : Clean P clock as t a)
    (hset : (write P t a).bind AuthWrite.setsPassword ≠ some user.id)
    (hstep : P.passwordProgram.poolStep t a = some t') :
    Since P k user hash s (cs ++ [a]) t' := by
  have hknows : t'.shared.db.Knows user.id → t.shared.db.Knows user.id :=
    knows_step h.id_le hstep
  refine ⟨h.id_le.trans (lastId_step hstep), ?_, fun tokenHash hi => ?_,
    fun hans k' l verified hl hp hknow => ?_, fun hans tokenHash hhas => ?_⟩
  · exact db_step (I := fun db => db.Stored user.id hash) h.stored hstep fun w hw =>
      h.stored.write h.id_le fun g hg => hset (by rw [hw, hg]; rfl)
  -- `kept`: a session issued since has its row, or was ended
  · rw [Run.occurs_snoc hcs]
    rcases (Run.occurs_snoc hcs).1 hi with hi | hi
    · rcases h.kept tokenHash hi with hhas | hends
      · by_cases hpurge : Purges t a user.id
        · exact absurd hhas (hclean.issued k user hash s cs tokenHash hpurge hforce hi)
        · exact (has_step hhas hpurge hstep).imp_right .inr
      · exact .inr (.inl hends)
    · exact .inl (hi.has hstep)
  -- `pursuing`: before this action by the step of one request, at it by the condition
  · rcases (Run.occurs_snoc hcs).1 hans with hbefore | hnow
    · rcases step_phase hstep hl with hl | ⟨q, hq⟩ | ⟨salt, l', rfl, hl', hgoes⟩
      · exact h.pursuing hbefore k' l verified hl hp (hknows hknow)
      · rw [hq] at hp
        exact hp.2.elim
      · rcases hgoes.pursues hp with hp | ⟨u, hu, hid, rfl⟩ | hid
        · exact h.pursuing hbefore k' l' verified hl' hp (hknows hknow)
        · exact congrArg some (h.stored u hu hid)
        · exact absurd hid (h.id_le.trans_lt (Int.lt_succ _)).ne
    · rcases step_phase hstep hl with hl | ⟨q, hq⟩ | ⟨salt, l', rfl, hl', hgoes⟩
      · exact hclean.pursuing k user hash s cs hnow hforce k' l verified hl hp (hknows hknow)
      · rw [hq] at hp
        exact hp.2.elim
      -- the action is the purge, after which its request goes on to nothing
      · obtain ⟨salt', l'', ha, hl'', hp'⟩ := hnow
        obtain ⟨rfl, rfl⟩ := Pool.Action.act.inj ha
        obtain rfl := Option.some.inj (hl'.symm.trans hl'')
        rw [hp'] at hgoes
        exact absurd hgoes not_goes_purgeOwn
  -- `only`: the purge leaves no session of the user, so each one was issued after it
  · rcases (Run.occurs_snoc hcs).1 hans with hbefore | hnow
    · rw [Run.occurs_snoc hcs]
      rcases has_of_step hstep hhas with hh | ⟨k', l, verified, hl, hp, hissues⟩
      · exact .inl (h.only hbefore tokenHash hh)
      · exact .inr (hissues hash (h.pursuing hbefore k' l verified hl hp (hknows hhas.knows)))
    · obtain ⟨salt, ⟨refreshed, phase⟩, rfl, hl, rfl⟩ := hnow
      rw [step_db hstep, write, hl] at hhas
      exact absurd hhas AuthDb.not_has_deleteSessionsForUser

/-- The request that sets a password is one that changes it. -/
theorem Sets.changes {k : ℕ} {user : AuthedUser} {hash : String} (h : Sets P t a k user hash) :
    ∃ l, t.threads.lookup k = some l ∧ l.phase.Changes P user.id user.sessionTokenHash := by
  obtain ⟨salt, ⟨refreshed, phase⟩, newPassword, -, hl, rfl, -⟩ := h
  exact ⟨_, hl, .inl ⟨rfl, rfl⟩⟩

theorem since_run {bs cs : List PasswordAction} {k : ℕ} {user : AuthedUser} {hash : String}
    {u s : PasswordPool} (hbs : Run.run P.passwordProgram.poolStep (installed clock) bs = some u)
    (hset : Sets P u a k user hash) (hstep : P.passwordProgram.poolStep u a = some s)
    (hcs : Run.run P.passwordProgram.poolStep s cs = some t)
    (hsame : Run.Along P.passwordProgram.poolStep
      (fun t a => (write P t a).bind AuthWrite.setsPassword ≠ some user.id) s cs)
    (hclean : CleanRun P clock (bs ++ a :: cs)) : Since P k user hash s cs t := by
  induction cs using List.reverseRecOn generalizing t with
  | nil =>
    obtain rfl := Option.some.inj hcs
    obtain ⟨l, hl, hc⟩ := hset.changes
    exact since_nil hset ((owned_run hbs hclean.start).2 k l _ _ hl hc).1 hstep
  | append_singleton cs b ih =>
    obtain ⟨v, hv, hvt⟩ := Run.run_snoc.1 hcs
    obtain ⟨hsame, hb⟩ := (Run.along_snoc hv).1 hsame
    rw [← List.cons_append, ← List.append_assoc] at hclean
    have hrun : Run.run P.passwordProgram.poolStep (installed clock) (bs ++ a :: cs) = some v := by
      rw [Run.run_append, hbs, Option.bind_some, Run.run, hstep, Option.bind_some, hv]
    exact since_snoc (ih hv hsame hclean.start) hv ⟨bs, a, u, rfl, hbs, hset, hstep, hsame⟩
      (hclean _ b [] v rfl hrun) hb hvt

/-- From an instance that has just been installed, whatever the requests and
    however their steps and verifications come: a change of password cuts off
    the old one, provided that the sessions it deletes are not to be kept and
    that no login with another password is on its way. -/
theorem cutsOff_of_clean (h : Run.run P.passwordProgram.poolStep (installed clock) as = some t)
    (hclean : CleanRun P clock as) : CutsOff P clock as t := by
  rintro k user hash s cs ⟨bs, a, u, rfl, hbs, hset, hstep, hsame⟩ hans - tokenHash now
  have hcs : Run.run P.passwordProgram.poolStep s cs = some t := by
    rw [Run.run_append, hbs, Option.bind_some, Run.run, hstep, Option.bind_some] at h
    exact h
  have hsince := since_run hbs hset hstep hcs hsame hclean
  refine ⟨fun hadmits => .inr (hsince.only hans tokenHash hadmits.has), fun hkeep hends hexp => ?_⟩
  have hs : Run.run P.passwordProgram.poolStep (installed clock) (bs ++ [a]) = some s :=
    Run.run_snoc.2 ⟨u, hbs, hstep⟩
  rcases hkeep with hown | hissues
  · -- At the purge its session was gone, as it had ended.
    obtain ⟨cs₁, b, cs₂, v, rfl, hv, hans⟩ := hans
    rw [← List.cons_append, ← List.append_assoc] at hclean hends
    have hbv : Run.run P.passwordProgram.poolStep (installed clock) (bs ++ a :: cs₁) = some v := by
      rw [Run.run_append, hbs, Option.bind_some, Run.run, hstep, Option.bind_some, hv]
    obtain ⟨salt, ⟨refreshed, phase⟩, -, hl, rfl⟩ := id hans
    have hc : (PasswordPhase.call (.change user) (.purgeOwn user.id)).Changes P user.id
        (some tokenHash) := .inl ⟨rfl, hown⟩
    have hgone := (hclean _ b cs₂ v rfl hbv).changing _ k _ tokenHash hans.purges hl hc
    have howned := (owned_run hbv hclean.start).2 k _ _ _ hl hc
    exact absurd (((howned.2 tokenHash rfl).resolve_left hgone).append _) hends
  · rcases hsince.kept tokenHash hissues with hhas | hended
    · exact hhas.admits hexp
    · refine absurd ?_ hends
      rw [List.append_cons]
      exact hended.since hs

/-! ## Two runs -/

/-- `n` steps of the request `k`. -/
def steps (k n : ℕ) : List PasswordAction := List.replicate n (.act k "")

/-- The first administrator is created, and logged in by the token `a`. -/
def bootstrapped : List PasswordAction :=
  .enter 0 ⟨none, .bootstrap "alice" "secret"⟩ :: steps 0 4

/-- The request 2 sets the password, having found its session alive; the request
    1 is to log the user out of it meanwhile. -/
def loggedOutFirst : List PasswordAction :=
  bootstrapped ++
  .enter 2 ⟨some "n3ur0n_session=a", .changePassword "secret" "secret2"⟩ :: steps 2 3 ++
  .enter 1 ⟨some "n3ur0n_session=a", .logout⟩ :: steps 1 5 ++ steps 2 4 ++
  .enter 3 ⟨none, .login "alice" "secret2"⟩ :: steps 3 6

/-- Nothing is purged but when the request is alone and there are no sessions. -/
def quiet (t : PasswordPool) : PasswordAction → Bool
  | .act k _ =>
    match t.threads.lookup k with
    | some ⟨_, .call _ (.purgeOwn _)⟩ => t.shared.db.sessions = [] ∧ t.threads.keys = {k}
    | _ => true
  | _ => true

theorem cleanRun_of_quiet
    (h : Run.Along P.passwordProgram.poolStep (fun t a => quiet t a) (installed clock) as) :
    CleanRun P clock as := by
  rintro bs a cs t rfl ht
  have hpurge {k salt use id} {l : PasswordThread} (ha : a = .act k salt)
      (hl : t.threads.lookup k = some l) (hp : l.phase = .call use (.purgeOwn id)) :
      t.shared.db.sessions = [] ∧ t.threads.keys = {k} := by
    have hq : quiet t a = true := h.split ht
    obtain ⟨refreshed, phase⟩ := l
    obtain rfl : phase = .call use (.purgeOwn id) := hp
    simpa [ha, quiet, hl] using hq
  have hnone {id : ℤ} {tokenHash : String} (hp : Purges t a id) :
      ¬t.shared.db.Has tokenHash id := by
    obtain ⟨k, salt, l, use, ha, hl, hp⟩ := hp
    rintro ⟨s, hs, -⟩
    rw [(hpurge ha hl hp).1] at hs
    cases hs
  refine ⟨fun id k l tokenHash hp _ _ => hnone hp,
    fun k user hash s cs tokenHash hp _ _ => hnone hp,
    fun k user hash s cs hans _ k' l verified hl hpursues => ?_⟩
  obtain ⟨salt, l', ha, hl', hp⟩ := hans
  have hk : k' ∈ t.threads.keys :=
    Finmap.mem_keys.2 (Finmap.lookup_isSome.1 (Option.isSome_of_eq_some hl))
  rw [(hpurge ha hl' hp).2, Finset.mem_singleton] at hk
  subst hk
  obtain rfl := Option.some.inj (hl.symm.trans hl')
  rw [hp] at hpursues
  exact hpursues.2.elim

/-- The user is logged out, and then in again with the new password. -/
theorem cutsOff_of_clean_loggedOut : ∃ t,
    Run.run AuthPool.toySetting.passwordProgram.poolStep (installed 0) loggedOutFirst = some t ∧
    t.shared.db.sessions = [⟨"aa", 1, 0, sessionTtlSecs⟩] ∧
    CutsOff AuthPool.toySetting 0 loggedOutFirst t := by
  have hs : (Run.run AuthPool.toySetting.passwordProgram.poolStep (installed 0) loggedOutFirst).map
      (·.shared.db.sessions) = some [⟨"aa", 1, 0, sessionTtlSecs⟩] := by decide
  obtain ⟨t, ht, hs⟩ := Option.map_eq_some_iff.1 hs
  exact ⟨t, ht, hs, cutsOff_of_clean ht (cleanRun_of_quiet (by decide))⟩

/-- The request 1 has verified the password of the user when the request 2, which has
    found its session alive, sets another one. -/
def verified : List PasswordAction :=
  bootstrapped ++
  .enter 1 ⟨none, .login "alice" "secret"⟩ :: steps 1 3 ++
  .enter 2 ⟨some "n3ur0n_session=a", .changePassword "secret" "secret2"⟩ :: steps 2 5

/-- The request 2 sets the password, and purges; then the request 1 goes on. -/
def overtaken : List PasswordAction :=
  verified ++ .act 2 "" :: (steps 2 1 ++ steps 1 3)

/-- Where the request 2 has set the password. -/
def justSet : PasswordPool :=
  (Run.run AuthPool.toySetting.passwordProgram.poolStep (installed 0)
    (verified ++ [.act 2 ""])).getD (installed 0)

/-- The hash that a login has verified, of the request that moves. -/
def verifiedBy (t : PasswordPool) : PasswordAction → Option String
  | .act k _ => (t.threads.lookup k).bind fun l =>
    match l.phase with
    | .call use _ => use.verified
    | .verify _ => none
  | _ => none

theorem Issues.verifiedBy {id : ℤ} {hash tokenHash : String} (h : Issues P id hash tokenHash t a) :
    PasswordPool.verifiedBy t a = some hash := by
  obtain ⟨k, salt, ⟨refreshed, phase⟩, user, now, db, rfl, hl, rfl, -⟩ := h
  rw [PasswordPool.verifiedBy, hl]
  rfl

/-- The session that made the change is gone, and the login with the old password
    has one. -/
theorem login_lives_on : ∃ t,
    Run.run AuthPool.toySetting.passwordProgram.poolStep (installed 0) overtaken = some t ∧
    t.shared.db.Admits "aa" 1 0 ∧ ¬t.shared.db.Admits "a" 1 0 ∧
    ¬CutsOff AuthPool.toySetting 0 overtaken t := by
  have hu : (Run.run AuthPool.toySetting.passwordProgram.poolStep (installed 0) verified).map
      (·.threads.lookup 2) = some (some ⟨some "a", .call (.change ⟨1, "alice", .admin, some "a"⟩)
        (.setOwnPassword 1 "secret2")⟩) := by decide
  obtain ⟨u, hu, hl⟩ := Option.map_eq_some_iff.1 hu
  have hs : Run.run AuthPool.toySetting.passwordProgram.poolStep (installed 0)
      (verified ++ [.act 2 ""]) = some justSet := by
    have hsome : (Run.run AuthPool.toySetting.passwordProgram.poolStep (installed 0)
      (verified ++ [.act 2 ""])).isSome := by decide
    obtain ⟨s, hs⟩ := Option.isSome_iff_exists.1 hsome
    rw [justSet, hs, Option.getD_some]
  obtain ⟨u', hu', hstep⟩ := Run.run_snoc.1 hs
  obtain rfl := Option.some.inj (hu.symm.trans hu')
  have ht : (Run.run AuthPool.toySetting.passwordProgram.poolStep (installed 0) overtaken).map
      (fun t => (t.shared.db.sessions, t.threads.keys)) =
        some ([⟨"aa", 1, 0, sessionTtlSecs⟩], ∅) := by decide
  obtain ⟨t, ht, hsessions⟩ := Option.map_eq_some_iff.1 ht
  obtain ⟨hsessions, hkeys⟩ := Prod.mk.inj hsessions
  have hadmits : t.shared.db.Admits "aa" 1 0 := by
    rw [AuthDb.admits_iff, hsessions]
    exact ⟨_, List.mem_singleton.2 rfl, rfl, rfl, by decide⟩
  refine ⟨t, ht, hadmits, fun h => ?_, fun h => ?_⟩
  · obtain ⟨s, hs, hhash, -⟩ := AuthDb.admits_iff.1 h
    rw [hsessions, List.mem_singleton] at hs
    rw [hs] at hhash
    exact absurd hhash (by decide)
  · -- No session was issued for the new password.
    have hissues : ¬Run.Occurs AuthPool.toySetting.passwordProgram.poolStep
        (Issues AuthPool.toySetting 1 "secret2" "aa") justSet
        (steps 2 1 ++ steps 1 3) := by
      have halong : Run.Along AuthPool.toySetting.passwordProgram.poolStep
          (fun t a => verifiedBy t a ≠ some "secret2") justSet
          (steps 2 1 ++ steps 1 3) := by decide
      exact Run.not_occurs_of_along (halong.imp fun _ _ _ hv hi => hv hi.verifiedBy)
    have hpurge : justSet.threads.lookup 2 = some ⟨some "a",
        .call (.change ⟨1, "alice", .admin, some "a"⟩) (.purgeOwn 1)⟩ := by decide
    have hidle : ∀ k l g, t.threads.lookup k = some l →
        ¬l.phase.Pursues AuthPool.toySetting 1 (some g) := by
      intro k l g hl
      have hk := Finmap.mem_keys.2 (Finmap.lookup_isSome.1 (Option.isSome_of_eq_some hl))
      rw [hkeys] at hk
      exact absurd hk (Finset.notMem_empty k)
    obtain hown | hi := (h 2 _ "secret2" justSet _
      ⟨verified, .act 2 "", u, rfl, hu, ⟨"", _, "secret2", rfl, hl, rfl, rfl⟩, hstep,
        by decide⟩
      ⟨[], _, steps 1 3, justSet, rfl, rfl, "", _, rfl, hpurge, rfl⟩ hidle "aa" 0).1
      hadmits
    · exact absurd hown (by decide)
    · exact hissues hi

end PasswordPool

end N3ur0n
