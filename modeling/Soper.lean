import Soper.Library.Transition
import Soper.Library.BoundedBuffer
import Soper.Library.BufferProgress
import Soper.Library.EndMarker
import Soper.Library.Merge
import Soper.Library.TextFormat
import Soper.Library.Total
import Soper.Library.Scan
import Soper.Library.Loop
import Soper.Library.Rendezvous
import Soper.Library.Rounding
import Soper.Library.LockFile
import Soper.Library.NameSetup
import Soper.Pow
import Soper.MRush.Lockstep
import Soper.MRush.Search
import Soper.MRush.Complete
import Soper.MRush.Calls
import Soper.MRush.Errors
import Soper.MRush.MonitorLoop
import Soper.MRush.Coverage
import Soper.MRush.Main
import Soper.MRush.Deadlock
import Soper.MRush.Outcome
import Soper.P3.Dato
import Soper.P3.Pipeline
import Soper.P3.Conservacion
import Soper.P3.Cadena
import Soper.P3.Ciclo
import Soper.P3.UsoVivo
import Soper.P3.Receptores
import Soper.P3.Terminacion
import Soper.P3.Mineros
import Soper.P3.Papeles
import Soper.Proyecto.Bloque
import Soper.Proyecto.Minero
import Soper.Proyecto.Rangos
import Soper.Proyecto.Hilos
import Soper.Proyecto.Reparto
import Soper.Proyecto.Monitor
import Soper.Proyecto.Historia
import Soper.Proyecto.Sistema
import Soper.Proyecto.Bucle
import Soper.Proyecto.Cadena
import Soper.Proyecto.Cierre
import Soper.Proyecto.Trabajo
import Soper.Proyecto.Escucha
import Soper.Proyecto.Terminacion
import Soper.Proyecto.Textos
import Soper.Proyecto.Arranque
import Soper.Proyecto.Nombres
import Soper.Proyecto.Limpieza
import Soper.Voting.Model
import Soper.Voting.Frame
import Soper.Voting.Candidate
import Soper.Voting.Phases
import Soper.Voting.Rounds
import Soper.Voting.Reach
import Soper.Voting.Signals
import Soper.Voting.VotesFile
import Soper.Voting.Tally
import Soper.Voting.Acceptance
import Soper.Voting.Progress
import Soper.Voting.Deadlock
import Soper.Voting.Halt
import Soper.Voting.Setup
import Soper.Voting.Shutdown
import Soper.SearchErrors
import Soper.SearchUnique
import Soper.Argumentos
