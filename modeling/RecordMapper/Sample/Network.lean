import RecordMapper.Registry.Build
import RecordMapper.Steps

/-!
A small social network to try things on: users who follow each other and write articles and comments,
profiles, and admins, who are users with a level.
-/

namespace RecordMapper.Network

/-- A foreign key with a name for its other side. -/
def linkTo (name target relatedName : String) : Field :=
  { name, type := .foreignKey target (some relatedName) }

/-- The declarations of the network's models. -/
def models : List ModelDecl :=
  [{ name := "user"
     fields :=
      [.autoKey "id",
        { name := "username", type := .char, unique := true },
        { name := "email", type := .char, null := true },
        { name := "created_at", type := .instant, autoNowAdd := true },
        { name := "followings"
          type := .manyToMany "user" "follow" "follower" "following" (some "followers") }] },
    { name := "follow"
      fields :=
      [.autoKey "id",
        linkTo "follower" "user" "following_links",
        linkTo "following" "user" "follower_links"] },
    { name := "article"
      fields :=
      [.autoKey "id",
        { name := "title", type := .char },
        { name := "views", type := .integer, default := some (.int 0) },
        linkTo "author" "user" "articles",
        { name := "created_at", type := .instant, autoNowAdd := true }] },
    { name := "comment"
      fields :=
      [.autoKey "id",
        { name := "body", type := .text },
        linkTo "article" "article" "comments",
        { linkTo "author" "user" "comments" with null := true }] },
    { name := "profile"
      fields :=
      [.autoKey "id",
        { name := "user", type := .oneToOne "user" (some "profile"), unique := true },
        { name := "bio", type := .text, null := true }] },
    { name := "admin"
      parent := some "user"
      fields := [{ name := "level", type := .integer, default := some (.int 1) }] }]

/-- The registry of the network. -/
def registry : Registry :=
  match Registry.build models with
  | .ok reg => reg
  | .error _ => ⟨[]⟩

/-- A row to start with. `child` says that the row extends a row of the parent model. -/
structure SeedRow where
  model : String
  child : Bool := false
  values : Record

/-- A row with an integer key and other values. -/
def row (model : String) (id : Int64) (values : Record) : SeedRow :=
  { model, values := ("id", .int id) :: values }

/-- The rows the network starts with, in the order they are inserted. -/
def seedRows : List SeedRow :=
  [row "user" 1 [("username", .text "alice"), ("email", .text "alice@example.com")],
    row "user" 2 [("username", .text "bob"), ("email", .null)],
    row "user" 3 [("username", .text "carol"), ("email", .text "carol@example.com")],
    { row "admin" 3 [("level", .int 2)] with child := true },
    { model := "follow", values := [("follower", .int 1), ("following", .int 2)] },
    { model := "follow", values := [("follower", .int 2), ("following", .int 1)] },
    { model := "follow", values := [("follower", .int 3), ("following", .int 1)] },
    row "article" 1 [("title", .text "Intro"), ("author", .int 1), ("views", .int 10)],
    row "article" 2 [("title", .text "Rust"), ("author", .int 1), ("views", .int 30)],
    row "article" 3 [("title", .text "Async"), ("author", .int 2), ("views", .int 5)],
    row "comment" 1 [("body", .text "Nice"), ("article", .int 1), ("author", .int 2)],
    row "comment" 2 [("body", .text "Thanks"), ("article", .int 1), ("author", .int 1)],
    row "comment" 3 [("body", .text "Great"), ("article", .int 3), ("author", .int 3)],
    row "profile" 1 [("user", .int 1), ("bio", .text "Hello")]]

/-- Inserts the rows into a database, up to the first that is refused. -/
def seed (reg : Registry) (database : String) : Job Unit :=
  seedRows.forM fun row => do
    let m ← Job.ofOutcome (reg.model row.model)
    if row.child then Job.insertChild database m row.values
    else
      let _ ← Job.insert database m row.values

end RecordMapper.Network
