import FsMeta.Engine
import FsMeta.Service.Availability

set_option autoImplicit false

namespace FsMeta

structure Service where
  engine : Engine
  availability : Availability := .available

namespace Service

abbrev Operation := ReaderT Interrupts (ExceptT Error (StateM Service))

def ofStore (store : Store) : Service := { engine := .ofStore store }

def isAvailable (service : Service) : Bool := service.availability.isAvailable

def close (service : Service) : Service :=
  { service with availability := service.availability.close.2 }

def run {α : Type} (service : Service) (interrupts : Interrupts) (operation : Operation α) :
    Except Error α × Service :=
  operation interrupts service

def requireAvailable : Operation Unit := do
  (← get).availability.require

def inScope {α : Type} (action : Scoped α) : Operation α := fun interrupts service =>
  let (result, engine) := service.engine.run interrupts action
  (result, { service with engine })

end Service

end FsMeta
