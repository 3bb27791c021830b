import N3ur0n.Auth.Routes

/-!
# The update of a user

An administrator gives a user another role, another password, or both. The role is
written before the password is looked at, and is not taken back if the password is
refused or cannot be stored.

* `AuthSetting.alone_updateUser`: the route is what its steps do, if those of no
  other request come in between and the storage does not fail;
* `updateUserRoute_iff`: when a request that is refused changes nothing.
-/

namespace N3ur0n

namespace AuthResponse

/-- Whether the status of the response is one of an error. -/
def isError : AuthResponse → Bool
  | error _ _ | storage _ _ | forbidden _ => true
  | _ => false

end AuthResponse

structure UpdateUserRequest where
  role : Option String
  password : Option String

/-- The storage calls of the route that fail, with their messages. One that does
    writes nothing. -/
structure UpdateFaults where
  updateUserRole : Option String
  setUserPassword : Option String
  deleteSessionsForUser : Option String
  getUserById : Option String

namespace UpdateFaults

def none : UpdateFaults := ⟨.none, .none, .none, .none⟩

variable (F : UpdateFaults) (P : AuthSetting) (salt : String) (id : ℤ)

/-- The user as he is read back; nothing is said of him if he is not found. -/
def updated (db : AuthDb) : AuthResponse :=
  .updated (if F.getUserById.isSome then .none else db.getUserById id)

/-- The route from the password on. The sessions of the user are deleted if this
    can be done. -/
def updatePassword (db : AuthDb) : Option String → AuthDb × AuthResponse
  | .none => (db, F.updated id db)
  | some pw =>
    if pw.length < 6 then (db, .error 400 "password must be at least 6 chars")
    else
      match F.setUserPassword with
      | some e => (db, .error 500 e)
      | .none =>
        let db := db.setUserPassword id (P.hashPassword pw salt)
        let db := if F.deleteSessionsForUser.isSome then db else db.deleteSessionsForUser id
        (db, F.updated id db)

def updateUserRoute (db : AuthDb) (req : UpdateUserRequest) : AuthDb × AuthResponse :=
  match req.role with
  | .none => F.updatePassword P salt id db req.password
  | some r =>
    match Role.parse r with
    | .none => (db, .error 400 "role must be user|operator|admin")
    | some role =>
      match F.updateUserRole with
      | some e => (db, .error 500 e)
      | .none => F.updatePassword P salt id (db.updateUserRole id role) req.password

end UpdateFaults

/-! ## The steps of the route -/

/-- A phase up to its response, with no step of another request in between and a
    storage that does not fail. -/
def AuthSetting.alone (P : AuthSetting) (salt : String) :
    ℕ → AuthState → AuthPhase → Option (AuthState × AuthResponse)
  | 0, _, _ => none
  | n + 1, σ, phase =>
    match P.step σ ⟨salt, true⟩ phase with
    | (σ', .inl phase') => P.alone salt n σ' phase'
    | (σ', .inr response) => some (σ', response)

namespace AuthSetting

variable {P : AuthSetting} {salt : String} {id : ℤ}

/-- What remains after the role, in three steps at most. -/
theorem alone_updatePassword (σ : AuthState) (password : Option String) (n : ℕ) :
    (match updatePassword id password with
      | .inl phase => P.alone salt (n + 3) σ phase
      | .inr response => some (σ, response)) =
    some ({ σ with db := (UpdateFaults.none.updatePassword P salt id σ.db password).1 },
      (UpdateFaults.none.updatePassword P salt id σ.db password).2) := by
  rcases password with - | pw
  · rfl
  · by_cases hlen : pw.length < 6
    · simp only [updatePassword, UpdateFaults.updatePassword, if_pos hlen]
    · simp only [updatePassword, UpdateFaults.updatePassword, if_neg hlen]
      rfl

/-- The first step of the route. -/
theorem step_updateUser {σ : AuthState} {user : AuthedUser} {req : UpdateUserRequest}
    (huser : hasPermission user.role .usersWrite) :
    P.step σ ⟨salt, true⟩ (.handler (.updateUser id req.role req.password) (some user)) =
      (σ, match req.role with
        | none => updatePassword id req.password
        | some r =>
          match Role.parse r with
          | none => .inr (.error 400 "role must be user|operator|admin")
          | some role => .inl (.setRole id role req.password)) := by
  have hguard : requirePermission (some user) .usersWrite = .ok () :=
    Except.reject_eq_ok.2 (not_not_intro huser)
  rcases hrole : req.role with - | r
  · simp only [step, handle, hguard]
    rfl
  · rcases hparse : Role.parse r with - | role
    · simp only [step, handle, hguard, hparse]
      rfl
    · simp only [step, handle, hguard, hparse]
      rfl

/-- The steps of the route, alone and with a storage that does not fail. -/
theorem alone_updateUser {σ : AuthState} {user : AuthedUser} {req : UpdateUserRequest}
    (huser : hasPermission user.role .usersWrite) :
    P.alone salt 5 σ (.handler (.updateUser id req.role req.password) (some user)) =
      some ({ σ with db := (UpdateFaults.none.updateUserRoute P salt id σ.db req).1 },
        (UpdateFaults.none.updateUserRoute P salt id σ.db req).2) := by
  rw [alone, step_updateUser huser]
  rcases hrole : req.role with - | r
  · simp only [UpdateFaults.updateUserRoute, hrole]
    rw [← alone_updatePassword σ req.password 1]
    rcases updatePassword id req.password with phase | response
    · rfl
    · rfl
  · rcases hparse : Role.parse r with - | role
    · simp only [UpdateFaults.updateUserRoute, hrole, hparse]
    · simp only [UpdateFaults.updateUserRoute, hrole, hparse]
      refine Eq.trans ?_ (alone_updatePassword { σ with db := σ.db.updateUserRole id role } _ 0)
      rw [alone, step]
      rcases updatePassword id req.password with phase | response
      · rfl
      · rfl

end AuthSetting

/-! ## Requests that are refused -/

/-- The role, the password and the sessions of a user are the same. -/
def AuthDb.SameUser (id : ℤ) (db db' : AuthDb) : Prop :=
  (db'.users.find? (·.id = id)).map (fun u => (u.role, u.passwordHash)) =
      (db.users.find? (·.id = id)).map (fun u => (u.role, u.passwordHash)) ∧
    db'.sessions.filter (·.userId = id) = db.sessions.filter (·.userId = id)

theorem AuthDb.SameUser.refl {id : ℤ} {db : AuthDb} : SameUser id db db := ⟨rfl, rfl⟩

/-- Another role is not given to a user, exactly if he has it. -/
theorem AuthDb.sameUser_updateUserRole {id : ℤ} {db : AuthDb} {role : Role} :
    SameUser id db (db.updateUserRole id role) ↔ ∀ u ∈ db.users, u.id = id → u.role = role := by
  have hfind : (db.updateUserRole id role).users.find? (·.id = id) =
      (db.users.find? (·.id = id)).map fun u => if u.id = id then { u with role := role } else u :=
    Rows.find?_update (fun u : UserRow => u.id) fun u => by split <;> rfl
  rw [SameUser, hfind]
  rcases hu : db.users.find? (·.id = id) with - | u
  · rw [hu]
    refine ⟨fun _ u hu' hid => ?_, fun _ => ⟨rfl, rfl⟩⟩
    exact absurd (decide_eq_true hid) (List.find?_eq_none.1 hu u hu')
  · obtain ⟨hmem, hid⟩ := (Rows.find?_key (fun u : UserRow => u.id) db.ids_nodup).1 hu
    have huser (v : UserRow) (hv : v ∈ db.users) (hvid : v.id = id) : v = u :=
      Rows.eq_of_key_eq db.ids_nodup hv hmem (hvid.trans hid.symm)
    simp only [hu, Option.map_some, if_pos hid]
    constructor
    · rintro ⟨heq, -⟩ v hv hvid
      rw [huser v hv hvid]
      exact (congrArg Prod.fst (Option.some.inj heq)).symm
    · intro hrole
      rw [hrole u hmem hid]
      exact ⟨rfl, rfl⟩

namespace UpdateFaults

variable {F : UpdateFaults} {P : AuthSetting} {salt : String} {id : ℤ}

/-- The password is too short, or cannot be stored. -/
def RefusesPassword (F : UpdateFaults) (password : Option String) : Prop :=
  ∃ pw, password = some pw ∧ (pw.length < 6 ∨ F.setUserPassword.isSome)

/-- The user is given another role than he has, and it can be stored. -/
def GivesRole (F : UpdateFaults) (id : ℤ) (db : AuthDb) (role : Option String) : Prop :=
  F.updateUserRole = .none ∧ ∃ r role', role = some r ∧ Role.parse r = some role' ∧
    ∃ u ∈ db.users, u.id = id ∧ u.role ≠ role'

/-- From the password on, a request that is refused writes nothing. -/
theorem updatePassword_isError {db : AuthDb} {password : Option String} :
    ((F.updatePassword P salt id db password).2.isError ↔ F.RefusesPassword password) ∧
      ((F.updatePassword P salt id db password).2.isError →
        (F.updatePassword P salt id db password).1 = db) := by
  rcases password with - | pw
  · exact ⟨⟨nofun, nofun⟩, nofun⟩
  · by_cases hlen : pw.length < 6
    · rw [updatePassword, if_pos hlen]
      exact ⟨⟨fun _ => ⟨pw, rfl, .inl hlen⟩, fun _ => rfl⟩, fun _ => rfl⟩
    · rcases hfault : F.setUserPassword with - | e
      · simp only [updatePassword, if_neg hlen, hfault]
        refine ⟨⟨nofun, ?_⟩, nofun⟩
        rintro ⟨pw', hpw, h | h⟩
        · exact absurd (Option.some.inj hpw ▸ h) hlen
        · rw [hfault] at h
          cases h
      · simp only [updatePassword, if_neg hlen, hfault]
        exact ⟨⟨fun _ => ⟨pw, rfl, .inr (hfault ▸ rfl)⟩, fun _ => rfl⟩, fun _ => trivial⟩

/-- A request that is refused leaves the user as he was, exactly if it does not
    give him another role with a password that is refused. -/
theorem updateUserRoute_iff (F : UpdateFaults) (P : AuthSetting) (salt : String) (id : ℤ)
    (db : AuthDb) (req : UpdateUserRequest) :
    ((F.updateUserRoute P salt id db req).2.isError →
        db.SameUser id (F.updateUserRoute P salt id db req).1) ↔
      ¬(F.GivesRole id db req.role ∧ F.RefusesPassword req.password) := by
  rcases hrole : req.role with - | r
  · simp only [updateUserRoute, hrole]
    refine iff_of_true (fun h => ?_) ?_
    · rw [updatePassword_isError.2 h]
      exact .refl
    · rintro ⟨⟨-, r, -, hr, -⟩, -⟩
      cases hr
  -- a role of another name is refused before anything is written
  rcases hparse : Role.parse r with - | role
  · simp only [updateUserRoute, hrole, hparse]
    refine iff_of_true (fun _ => .refl) ?_
    rintro ⟨⟨-, r', role, hr, hrole', -⟩, -⟩
    cases hr
    cases hparse.symm.trans hrole'
  -- what is left to refuse is the password, after the role was written
  rcases hfault : F.updateUserRole with - | e
  · have hgives : F.GivesRole id db (some r) ↔ ¬db.SameUser id (db.updateUserRole id role) := by
      rw [AuthDb.sameUser_updateUserRole]
      push Not
      refine ⟨?_, fun h => ⟨hfault, r, role, rfl, hparse, h⟩⟩
      rintro ⟨-, r', role', hr, hrole', h⟩
      obtain rfl := Option.some.inj hr
      obtain rfl := Option.some.inj (hparse.symm.trans hrole')
      exact h
    have hroute : F.updateUserRoute P salt id db req =
        F.updatePassword P salt id (db.updateUserRole id role) req.password := by
      simp only [updateUserRoute, hrole, hparse, hfault]
    rw [hroute, hgives, ← updatePassword_isError.1]
    constructor
    · rintro h ⟨hnot, herr⟩
      have hsame := h herr
      rw [updatePassword_isError.2 herr] at hsame
      exact hnot hsame
    · intro h herr
      rw [updatePassword_isError.2 herr]
      exact not_not.1 fun hnot => h ⟨hnot, herr⟩
  · simp only [updateUserRoute, hrole, hparse, hfault]
    refine iff_of_true (fun _ => .refl) ?_
    rintro ⟨⟨hnone, -⟩, -⟩
    cases hfault.symm.trans hnone

/-- A user who is made an administrator by a request that is refused. -/
def bob : AuthDb where
  users := [⟨⟨2, "bob", .user, 0, .none⟩, "secret"⟩]
  lastId := 2
  sessions := []
  ids_nodup := by decide
  ids_le := by decide
  usernames_nodup := by decide
  hashes_nodup := by decide
  foreign := by decide

theorem not_sameUser_short :
    ¬((none.updateUserRoute AuthPool.toySetting "" 2 bob ⟨some "admin", some "short"⟩).2.isError →
      bob.SameUser 2
        (none.updateUserRoute AuthPool.toySetting "" 2 bob ⟨some "admin", some "short"⟩).1) := by
  intro h
  exact absurd (h (by decide)).1 (by decide)

end UpdateFaults

end N3ur0n
