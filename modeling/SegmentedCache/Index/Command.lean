import SegmentedCache.Index.Basic

/-!
# Command sequences on an index

A command is one atomic access to an index by id. A lane is the sequence of
commands of one client. Lanes that run side by side take turns in some order;
`runLanes` lets them run one after another. Lanes whose ids are disjoint get the
same answers under every order of turns.
-/
namespace SegmentedCache.Index

inductive Command
  | insert (o : CacheObject)
  | delete (id : ObjectId)
  | deleteExact (o : CacheObject)
  | find (id : ObjectId)
deriving DecidableEq, Repr

/-- The id that a command reads or writes. -/
def Command.id : Command → ObjectId
  | .insert o => o.id
  | .delete id => id
  | .deleteExact o => o.id
  | .find id => id

/-- Runs a command and answers the object that it displaced, deleted or found. -/
def Command.run (ix : Index) (s : Objects) : Command → Option CacheObject × Index × Objects
  | .insert o => ix.insert s o
  | .delete id => ix.delete s id
  | .deleteExact o =>
    let (deleted, ix, s) := ix.deleteExact s o
    (if deleted then some o else none, ix, s)
  | .find id => (ix.find? id, ix, s)

def runCommands (ix : Index) (s : Objects) :
    List Command → List (Option CacheObject) × Index × Objects
  | [] => ([], ix, s)
  | c :: rest =>
    let (answer, ix, s) := c.run ix s
    let (answers, ix, s) := runCommands ix s rest
    (answer :: answers, ix, s)

def runLanes (ix : Index) (s : Objects) :
    List (List Command) → List (List (Option CacheObject)) × Index × Objects
  | [] => ([], ix, s)
  | lane :: rest =>
    let (answers, ix, s) := runCommands ix s lane
    let (others, ix, s) := runLanes ix s rest
    (answers :: others, ix, s)

end SegmentedCache.Index
