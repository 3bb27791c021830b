import N3ur0n.Conversation
import N3ur0n.Lib.Rows

/-!
# Users and sessions

The tables `users` and `sessions`, and the storage calls made of them. Ids of
users are never given twice, their names are distinct, and a session belongs to
a user that exists: it goes away with him.

A session is found by the hash of its token, and is alive as long as it has not
expired (`findSession`). What a call removes and what it keeps is said by
`deleteSessions` and `deleteUser`.
-/

namespace N3ur0n

/-- Role granted to a user. -/
inductive Role
  | user
  | operator
  | admin
  deriving DecidableEq

namespace Role

def asStr : Role → String
  | user => "user"
  | operator => "operator"
  | admin => "admin"

def parse : String → Option Role
  | "user" => some user
  | "operator" => some operator
  | "admin" => some admin
  | _ => none

theorem parse_asStr (r : Role) : parse r.asStr = some r := by
  cases r <;> rfl

end Role

structure UserRecord where
  id : ℤ
  username : String
  role : Role
  createdAt : ℤ
  lastLogin : Option ℤ
  deriving DecidableEq

/-- A row of `users`: what is told of a user, and his password, hashed. -/
structure UserRow extends UserRecord where
  passwordHash : String
  deriving DecidableEq

/-- A row of `sessions`; the token itself is not stored. -/
structure SessionRow where
  tokenHash : String
  userId : ℤ
  createdAt : ℤ
  expiresAt : ℤ
  deriving DecidableEq

/-- The tables, whose constraints always hold; `lastId` is the highest id given
    to a user. -/
structure AuthDb where
  users : List UserRow
  lastId : ℤ
  sessions : List SessionRow
  ids_nodup : (users.map (·.id)).Nodup
  ids_le : ∀ u ∈ users, u.id ≤ lastId
  usernames_nodup : (users.map (·.username)).Nodup
  hashes_nodup : (sessions.map (·.tokenHash)).Nodup
  foreign : ∀ s ∈ sessions, s.userId ∈ users.map (·.id)

namespace AuthDb

/-- The tables as they are created. -/
def empty : AuthDb := ⟨[], 0, [], List.nodup_nil, nofun, List.nodup_nil, List.nodup_nil, nofun⟩

variable (db : AuthDb)

/-! ## Users -/

def countUsers : ℕ := db.users.length

/-- A user is inserted under the next id; the password comes hashed. -/
def createUser (username passwordHash : String) (role : Role) (nowUnix : ℤ) :
    Except StorageError (AuthDb × UserRecord) :=
  if hn : username ∈ db.users.map (·.username) then .error .unique
  else
    let user : UserRow := ⟨⟨db.lastId + 1, username, role, nowUnix, none⟩, passwordHash⟩
    .ok ({ db with
      users := db.users ++ [user]
      lastId := db.lastId + 1
      ids_nodup := Rows.nodup_insert db.ids_nodup fun h => by
        obtain ⟨u, hu, hid⟩ := List.mem_map.1 h
        have hid : u.id = db.lastId + 1 := hid
        have hle : u.id ≤ db.lastId := db.ids_le u hu
        omega
      ids_le := List.forall_mem_append.2
        ⟨fun u hu => (db.ids_le u hu).trans (by omega), List.forall_mem_singleton.2 le_rfl⟩
      usernames_nodup := Rows.nodup_insert db.usernames_nodup hn
      foreign := fun s hs => by
        rw [List.map_append]
        exact List.mem_append_left _ (db.foreign s hs) }, user.toUserRecord)

def getUserById (id : ℤ) : Option UserRecord :=
  (db.users.find? (·.id = id)).map (·.toUserRecord)

/-- The users, by name. -/
def listUsers : List UserRecord :=
  (db.users.map (·.toUserRecord)).insertionSort fun u v => u.username ≤ v.username

/-- The row of a user is rewritten, his id and his name apart. -/
def updateUser (id : ℤ) (f : UserRow → UserRow) (hid : ∀ u, (f u).id = u.id)
    (hname : ∀ u, (f u).username = u.username) : AuthDb :=
  let g (u : UserRow) : UserRow := if u.id = id then f u else u
  have hgid : (·.id) ∘ g = (·.id) := funext fun u => by
    simp only [g, Function.comp_apply]
    split
    · exact hid u
    · rfl
  have hgname : (·.username) ∘ g = (·.username) := funext fun u => by
    simp only [g, Function.comp_apply]
    split
    · exact hname u
    · rfl
  { db with
    users := db.users.map g
    ids_nodup := by rw [List.map_map, hgid]; exact db.ids_nodup
    ids_le := List.forall_mem_map.2 fun u hu => (congrFun hgid u).trans_le (db.ids_le u hu)
    usernames_nodup := by rw [List.map_map, hgname]; exact db.usernames_nodup
    foreign := by rw [List.map_map, hgid]; exact db.foreign }

def updateUserRole (id : ℤ) (role : Role) : AuthDb :=
  db.updateUser id (fun u => { u with role := role }) (fun _ => rfl) fun _ => rfl

/-- The password comes hashed. -/
def setUserPassword (id : ℤ) (passwordHash : String) : AuthDb :=
  db.updateUser id (fun u => { u with passwordHash := passwordHash }) (fun _ => rfl) fun _ => rfl

def touchLastLogin (id nowUnix : ℤ) : AuthDb :=
  db.updateUser id (fun u => { u with lastLogin := some nowUnix }) (fun _ => rfl) fun _ => rfl

/-- The user goes away, and his sessions with him. -/
def deleteUser (id : ℤ) : AuthDb where
  users := db.users.filter (·.id ≠ id)
  lastId := db.lastId
  sessions := db.sessions.filter (·.userId ≠ id)
  ids_nodup := Rows.nodup_delete db.ids_nodup _
  ids_le := fun u hu => db.ids_le u (List.mem_of_mem_filter hu)
  usernames_nodup := Rows.nodup_delete db.usernames_nodup _
  hashes_nodup := Rows.nodup_delete db.hashes_nodup _
  foreign := fun s hs => by
    obtain ⟨hs, hne⟩ := List.mem_filter.1 hs
    obtain ⟨u, hu, hid⟩ := List.mem_map.1 (db.foreign s hs)
    exact List.mem_map.2 ⟨u, List.mem_filter.2 ⟨hu, by rwa [hid]⟩, hid⟩

/-- The id and the hashed password of the user of this name. -/
def fetchPasswordHash (username : String) : Option (ℤ × String) :=
  (db.users.find? (·.username = username)).map fun u => (u.id, u.passwordHash)

/-! ## Sessions -/

def createSession (userId : ℤ) (tokenHash : String) (createdAt expiresAt : ℤ) :
    Except StorageError AuthDb :=
  if ht : tokenHash ∈ db.sessions.map (·.tokenHash) then .error .unique
  else if hu : userId ∈ db.users.map (·.id) then
    .ok { db with
      sessions := db.sessions ++ [⟨tokenHash, userId, createdAt, expiresAt⟩]
      hashes_nodup := Rows.nodup_insert db.hashes_nodup ht
      foreign := List.forall_mem_append.2 ⟨db.foreign, List.forall_mem_singleton.2 hu⟩ }
  else .error .foreignKey

/-- The session of this token, with its user: the query of `lookup_session`. -/
def findSession (tokenHash : String) : Option (UserRecord × ℤ) :=
  (db.sessions.find? (·.tokenHash = tokenHash)).bind fun s =>
    (db.getUserById s.userId).map fun u => (u, s.expiresAt)

/-- Sessions are rewritten, their tokens and users apart. -/
def mapSessions (f : SessionRow → SessionRow) (hhash : ∀ s, (f s).tokenHash = s.tokenHash)
    (huser : ∀ s, (f s).userId = s.userId) : AuthDb :=
  { db with
    sessions := db.sessions.map f
    hashes_nodup := by
      rw [List.map_map, show (·.tokenHash) ∘ f = (·.tokenHash) from funext hhash]
      exact db.hashes_nodup
    foreign := List.forall_mem_map.2 fun s hs => (huser s).symm ▸ db.foreign s hs }

def refreshSessionExpiry (tokenHash : String) (newExpiresAt : ℤ) : AuthDb :=
  db.mapSessions
    (fun s => if s.tokenHash = tokenHash then { s with expiresAt := newExpiresAt } else s)
    (fun s => by split <;> rfl) fun s => by split <;> rfl

/-- The sessions that do not satisfy the condition stay. -/
def deleteSessions (c : SessionRow → Bool) : AuthDb :=
  { db with
    sessions := db.sessions.filter fun s => !c s
    hashes_nodup := Rows.nodup_delete db.hashes_nodup _
    foreign := fun s hs => db.foreign s (List.mem_of_mem_filter hs) }

def deleteSession (tokenHash : String) : AuthDb := db.deleteSessions (·.tokenHash = tokenHash)

def deleteSessionsForUser (userId : ℤ) : AuthDb := db.deleteSessions (·.userId = userId)

def pruneExpiredSessions (nowUnix : ℤ) : AuthDb := db.deleteSessions (·.expiresAt ≤ nowUnix)

end AuthDb

end N3ur0n
