import ComputerNetworking.Analysis.Comparison
import ComputerNetworking.Analysis.EndToEnd
import ComputerNetworking.Analysis.Figures
import ComputerNetworking.Analysis.Journeys
import ComputerNetworking.Analysis.NodeEnergy
import ComputerNetworking.Analysis.OfflineAgreement
import ComputerNetworking.Analysis.PacketCounts
import ComputerNetworking.Analysis.ParseWired
import ComputerNetworking.Analysis.ParseWireless
import ComputerNetworking.Analysis.WiredCounts
import ComputerNetworking.Analysis.WirelessCounts
import ComputerNetworking.Analysis.WirelessTrace
import ComputerNetworking.Aodv.Agent
import ComputerNetworking.Aodv.Assertions
import ComputerNetworking.Aodv.Checked
import ComputerNetworking.Aodv.Freshness
import ComputerNetworking.Aodv.LoopFreedom
import ComputerNetworking.Aodv.Messages
import ComputerNetworking.Aodv.Network
import ComputerNetworking.Aodv.RqueueAgreement
import ComputerNetworking.Aodv.RqueueCustody
import ComputerNetworking.Aodv.RqueueLinks
import ComputerNetworking.Dsdv.Agent
import ComputerNetworking.Dsdv.Freshness
import ComputerNetworking.Dsdv.LoopFreedom
import ComputerNetworking.Dsdv.Network
import ComputerNetworking.Dsdv.Orderly
import ComputerNetworking.Dsdv.Settling
import ComputerNetworking.Dsdv.Stalling
import ComputerNetworking.Dsdv.Updates
import ComputerNetworking.Dsdv.Waiting
import ComputerNetworking.Dsdv.Wire
import ComputerNetworking.Dsdv.WireAgent
import ComputerNetworking.FileServer.Agreement
import ComputerNetworking.FileServer.Answers
import ComputerNetworking.FileServer.Containment
import ComputerNetworking.FileServer.Independence
import ComputerNetworking.FileServer.Links
import ComputerNetworking.FileServer.LogFile
import ComputerNetworking.FileServer.Paths
import ComputerNetworking.FileServer.Recovery
import ComputerNetworking.FileServer.TextPage
import ComputerNetworking.Foundations.Custody
import ComputerNetworking.Foundations.FirstHit
import ComputerNetworking.Foundations.HtmlText
import ComputerNetworking.Foundations.Interleaving
import ComputerNetworking.Foundations.LinkedQueue
import ComputerNetworking.Foundations.Listing
import ComputerNetworking.Foundations.NextHop
import ComputerNetworking.Foundations.Requeue
import ComputerNetworking.Foundations.RingWindow
import ComputerNetworking.Foundations.Runs
import ComputerNetworking.Foundations.Simulation
import ComputerNetworking.Queue.Blocking
import ComputerNetworking.Queue.PacketQueue
import ComputerNetworking.Queue.PacketQueueLinks
import ComputerNetworking.Queue.RedAdaptive
import ComputerNetworking.Queue.RedCustody
import ComputerNetworking.Queue.RedDefault
import ComputerNetworking.Queue.RedForced
import ComputerNetworking.Queue.RedGentle
import ComputerNetworking.Queue.RedIdle
import ComputerNetworking.Queue.RedLimit
import ComputerNetworking.Queue.RedMaxP
import ComputerNetworking.Queue.RedModifiedSpacing
import ComputerNetworking.Queue.RedMonotone
import ComputerNetworking.Queue.RedPole
import ComputerNetworking.Queue.RedProbability
import ComputerNetworking.Queue.RedQueue
import ComputerNetworking.Queue.RedSpacing
import ComputerNetworking.Queue.RedSpec
import ComputerNetworking.Queue.RedState
import ComputerNetworking.Queue.RedThresholds
import ComputerNetworking.Queue.Rio
import ComputerNetworking.Queue.RioLaw
import ComputerNetworking.Scheduling.Agreement
import ComputerNetworking.Scheduling.Calendar
import ComputerNetworking.Scheduling.CalendarFiling
import ComputerNetworking.Scheduling.CalendarSearch
import ComputerNetworking.Scheduling.CalendarYear
import ComputerNetworking.Scheduling.ListScheduler
import ComputerNetworking.Scheduling.Scheduler
import ComputerNetworking.Tcp.Acker
import ComputerNetworking.Tcp.Connection
import ComputerNetworking.Tcp.Sequence
import ComputerNetworking.Tcp.TcpAgent
