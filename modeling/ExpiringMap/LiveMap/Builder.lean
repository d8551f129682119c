import ExpiringMap.LiveMap.Basic

namespace ExpiringMap

structure Builder (ν : Type) where
  settings : Settings := {}
  callback? : Option (Callback ν) := none

namespace Builder

variable {ν : Type}

/-- Settings are made one after the other. How many entries to make room for beforehand is not among
them, since it shows nowhere. -/
inductive Setting (ν : Type) where
  | settings (s : Settings)
  | workers (n : Nat)
  | queueCapacity (n : Nat)
  | idlePoll (s : Span)
  | callback (c : Callback ν)

def set (b : Builder ν) : Setting ν → Builder ν
  | .settings s => { b with settings := s }
  | .workers n => { b with settings.workers := n }
  | .queueCapacity n => { b with settings.queueCapacity := n }
  | .idlePoll s => { b with settings.idlePoll := s }
  | .callback c => { b with callback? := some c }

def along (route : List (Setting ν)) : Builder ν := route.foldl set {}

/-- The shortest way to a map that tells of expired entries. -/
def listening (c : Callback ν) (workers : Nat) : Builder ν :=
  along [.callback c, .workers workers]

def build (b : Builder ν) (hasRuntime : Bool) : Except LiveMap.OpenError (LiveMap ν) :=
  LiveMap.open? b.settings b.callback? hasRuntime

end Builder

end ExpiringMap
