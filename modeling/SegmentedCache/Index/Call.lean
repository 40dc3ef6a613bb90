import SegmentedCache.Index.Basic

/-!
# Calls on an index

Everything a client can ask of an index; a program lets its clients at an index
by `Call.run`. Objects are handed over by handle, so one object may be entered
again and again, also after it was deleted, and two different objects may have
one id. `Call.mark` does not reach the index: with it a cache sets the flag of
an object that it shares with the index.
-/
namespace SegmentedCache.Index

inductive Call
  | insert (o : CacheObject)
  | insertRequest (r : Request)
  | find (id : ObjectId)
  | contains (id : ObjectId)
  | delete (id : ObjectId)
  | deleteExact (o : CacheObject)
  | deleteObject (o : CacheObject)
  | tryDelete (o : CacheObject)
  | mark (o : CacheObject) (resident : Bool)
deriving DecidableEq, Repr

inductive Answer
  | object (o : Option CacheObject)
  | entered (new : CacheObject) (old : Option CacheObject)
  | truth (b : Bool)
  | done
deriving DecidableEq, Repr

def Call.run (ix : Index) (s : Objects) : Call → Answer × Index × Objects
  | .insert o =>
    let (old, ix, s) := ix.insert s o
    (.object old, ix, s)
  | .insertRequest r =>
    let ((o, old), ix, s) := ix.insertRequest s r
    (.entered o old, ix, s)
  | .find id => (.object (ix.find? id), ix, s)
  | .contains id => (.truth (ix.contains id), ix, s)
  | .delete id =>
    let (old, ix, s) := ix.delete s id
    (.object old, ix, s)
  | .deleteExact o =>
    let (deleted, ix, s) := ix.deleteExact s o
    (.truth deleted, ix, s)
  | .deleteObject o => (.done, ix.deleteObject s o)
  | .tryDelete o =>
    let (deleted, ix, s) := ix.tryDelete s o
    (.truth deleted, ix, s)
  | .mark o resident => (.done, ix, s.setResident o resident)

def runCalls (ix : Index) (s : Objects) : List Call → List Answer × Index × Objects
  | [] => ([], ix, s)
  | c :: rest =>
    let (answer, ix, s) := c.run ix s
    let (answers, ix, s) := runCalls ix s rest
    (answer :: answers, ix, s)

end SegmentedCache.Index
