import PPView.PathGenerator.LastPass
import PPView.PathGenerator.BestPaths
import PPView.Plan.MergeKeyNode
import PPView.Plan.RouteTimes
import PPView.Bag.DFSearch
import PPView.Bag.KmeansRun
import PPView.Bag.RouteSearch
import PPView.TimeIR.OpenTimes
import PPView.Bag.Clusterings
import PPView.Path.Calls
import PPView.PostProcessor.DayLists
import PPView.PostProcessor.Nights
import PPView.PostProcessor.Pages
import PPView.PlanThroughtPois.PassWarning
import PPView.Planner.ReferOriginViews
import PPView.DaysPlan.WarningList
import PPView.TourSet.Hotels
import PPView.ReqParser.CompleteHotel
import PPView.ReqParser.ClashRemovals
import PPView.PrivateData.HotUpdate
import PPView.PrivateData.Isolation
import PPView.RealTime.Replacement
import PPView.LightPlan.CarStoreFrame
import PPView.DaysPlan.ErrorAndWarnings
import PPView.PathGenerator.FirstSession
import PPView.PathGenerator.Lengthening
import PPView.PathGenerator.OpenCount
import PPView.PathGenerator.OpenOverflow
import PPView.PathGenerator.SearchCalls
import PPView.PathGenerator.StretchMarks
import PPView.Plan.FaultToLerant
import PPView.PathGenerator.CountedIdx
import PPView.PathGenerator.TreatedIdx
import PPView.ConstData.ValidatedRules
import PPView.Plan.AdjacentDays
import PPView.Plan.DurationOrder
import PPView.Plan.MultiPlaces
import PPView.RealTime.Enriched
import PPView.RealTime.Norm15Min
import PPView.TimeIR.DateShapes
import PPView.DataChecker.RichPlaces
import PPView.VList.PoiRanker
import PPView.LYConstData.BottomTicket
import PPView.LYConstData.CityIndex
import PPView.TrafficData.TrafPair
import PPView.ReqParser.CustomTraf
import PPView.Bag.ClusterDist
import PPView.Bag.SPathOrder
import PPView.DataList.VarPlaceCmp
import PPView.Threads.WaitListRuns
import PPView.Grid.RangePlace
import PPView.Http.UpdateTimes
import PPView.Server.Message
import PPView.Server.Service
import PPView.Bag.DoPos
import PPView.Bag.PoolSearch
import PPView.Bag.RouteEval
import PPView.Bag.AdjustTight
import PPView.Bag.AdaptOrder
import PPView.Bag.ClusterPlaces
import PPView.Bag.RootPaths
